import Handheld.Proofs.Asm.Linking
import Handheld.Proofs.Source.Layout

/-!
The lines of function bodies. Operands are in range, and each label that is made up is placed once.
-/
namespace Handheld

open Asm

def Asm.Line.placed? : Line → Option Nat
  | label (.fresh n) => some n
  | _ => none

def Asm.Line.aim? : Line → Option Nat
  | op _ [.label (.fresh n)] => some n
  | _ => none

def Asm.Code.placed (code : Code) : List Nat :=
  code.filterMap Line.placed?

def Asm.Code.aims (code : Code) : List Nat :=
  code.filterMap Line.aim?

namespace Source

variable {g : Globals} {line : Line} {code c1 c2 : Code} {ctx : Context} {b1 : Body} {ty1 ty2 : Ty}
  {e left right : Expr}

inductive FlatLine (g : Globals) : Line → Prop where
  | plain {opcode : Opcode} (h : opcode.layout = .none) : FlatLine g (.op opcode)
  | pushInt {n : Int32} : FlatLine g (pushInt n)
  | pushStr {bytes : List UInt8} : FlatLine g (pushStr bytes)
  | onFrame {a : Access} {w : Width} {n : Nat} (h : n ≤ 0xFFFF) : FlatLine g (.op (.access a w true) [.int n])
  | inData {a : Access} {w : Width} {n : Nat} (h : n ≤ 0xFFFF) : FlatLine g (.op (.access a w false) [.addr n])
  | call {name : String} (h : (g.functions.lookup name).isSome) : FlatLine g (.op .call [.label (.named name)])
  | library {c : Call} : FlatLine g (.call c)

attribute [simp] FlatLine.pushInt FlatLine.pushStr FlatLine.library

@[simp]
theorem flatLine_op {opcode : Opcode} : FlatLine g (.op opcode) ↔ opcode.layout = .none := by
  constructor
  · intro h
    generalize hline : Line.op opcode = line at h
    cases h with
    | plain h =>
      cases hline
      exact h
    | pushInt | pushStr | onFrame | inData | call | library => cases hline
  · exact .plain

inductive BodyLine (g : Globals) : Line → Prop where
  | flat {line : Line} (h : FlatLine g line) : BodyLine g line
  | label {n : Nat} : BodyLine g (.label (.fresh n))
  | jump {opcode : Opcode} {n : Nat} (h : opcode.layout = .target) : BodyLine g (.op opcode [.label (.fresh n)])

def Flat (g : Globals) (code : Code) : Prop :=
  ∀ line ∈ code, FlatLine g line

def Lined (g : Globals) (code : Code) : Prop :=
  ∀ line ∈ code, BodyLine g line

/-- Code that places the labels behind `lo` up to `hi`, and jumps to these and to labels around it. -/
structure Sealed (g : Globals) (around : Nat → Prop) (lo hi : Nat) (code : Code) : Prop where
  le : lo ≤ hi
  lines : Lined g code
  labels : ∀ n, code.placed.count n = (if lo < n ∧ n ≤ hi then 1 else 0)
    ∧ (n ∈ code.aims → lo < n ∧ n ≤ hi ∨ around n)

theorem FlatLine.placed? (h : FlatLine g line) : line.placed? = none := by
  cases h <;> rfl

theorem FlatLine.aim? (h : FlatLine g line) : line.aim? = none := by
  cases h <;> rfl

@[simp]
theorem flat_nil : Flat g [] := by
  rintro line ⟨⟩

@[simp]
theorem flat_cons : Flat g (line :: code) ↔ FlatLine g line ∧ Flat g code := by
  simp [Flat]

@[simp]
theorem flat_append {a b : Code} : Flat g (a ++ b) ↔ Flat g a ∧ Flat g b := by
  simp only [Flat, List.mem_append]
  grind

theorem Flat.placed (h : Flat g code) : code.placed = [] := by
  rw [Code.placed, List.filterMap_eq_nil_iff]
  exact fun line hline => (h line hline).placed?

theorem Flat.aims (h : Flat g code) : code.aims = [] := by
  rw [Code.aims, List.filterMap_eq_nil_iff]
  exact fun line hline => (h line hline).aim?

section Lined

theorem Flat.lined (h : Flat g code) : Lined g code :=
  fun line hline => .flat (h line hline)

@[simp]
theorem lined_nil : Lined g [] :=
  flat_nil.lined

@[simp]
theorem lined_cons : Lined g (line :: code) ↔ BodyLine g line ∧ Lined g code := by
  simp [Lined]

@[simp]
theorem lined_append {a b : Code} : Lined g (a ++ b) ↔ Lined g a ∧ Lined g b := by
  simp only [Lined, List.mem_append]
  grind

attribute [simp] BodyLine.label

@[simp]
theorem bodyLine_pushInt (n : Int32) : BodyLine g (pushInt n) :=
  .flat .pushInt

@[simp]
theorem bodyLine_jmp (n : Nat) : BodyLine g (.op .jmp [.label (.fresh n)]) :=
  .jump rfl

@[simp]
theorem bodyLine_jz (n : Nat) : BodyLine g (.op .jz [.label (.fresh n)]) :=
  .jump rfl

@[simp]
theorem bodyLine_jnz (n : Nat) : BodyLine g (.op .jnz [.label (.fresh n)]) :=
  .jump rfl

end Lined

@[simp, grind =]
theorem placed_append (a b : Code) : Code.placed (a ++ b) = a.placed ++ b.placed :=
  List.filterMap_append

theorem placed_flatMap_eq_nil {α : Type} {xs : List α} {f : α → Code} (h : ∀ x ∈ xs, (f x).placed = []) :
    Code.placed (xs.flatMap f) = [] := by
  rw [Code.placed, List.filterMap_flatMap, List.flatMap_eq_nil_iff]
  exact h

@[simp, grind =]
theorem aims_append (a b : Code) : Code.aims (a ++ b) = a.aims ++ b.aims :=
  List.filterMap_append

@[simp, grind =]
theorem placed_nil : Code.placed [] = [] :=
  rfl

@[simp, grind =]
theorem placed_label (n : Nat) (code : Code) : Code.placed (.label (.fresh n) :: code) = n :: code.placed :=
  rfl

@[simp, grind =]
theorem placed_op (opcode : Opcode) (args : List Arg) (code : Code) :
    Code.placed (.op opcode args :: code) = code.placed :=
  rfl

@[simp, grind =]
theorem placed_pushInt (n : Int32) (code : Code) : Code.placed (pushInt n :: code) = code.placed :=
  rfl

@[simp, grind =]
theorem aims_nil : Code.aims [] = [] :=
  rfl

@[simp, grind =]
theorem aims_label (l : Label) (code : Code) : Code.aims (.label l :: code) = code.aims :=
  rfl

@[simp, grind =]
theorem aims_op (opcode : Opcode) (code : Code) : Code.aims (.op opcode [] :: code) = code.aims :=
  rfl

@[simp, grind =]
theorem aims_jump (opcode : Opcode) (n : Nat) (code : Code) :
    Code.aims (.op opcode [.label (.fresh n)] :: code) = n :: code.aims :=
  rfl

@[simp, grind =]
theorem aims_pushInt (n : Int32) (code : Code) : Code.aims (pushInt n :: code) = code.aims :=
  rfl

section Sealed

variable {around around' : Nat → Prop} {lo mid hi : Nat} {a b code : Code}

theorem Sealed.of_flat (h : Flat g code) : Sealed g around lo lo code where
  le := Nat.le_refl lo
  lines := h.lined
  labels n := by
    rw [h.placed, h.aims, List.count_nil, if_neg (by omega)]
    exact ⟨rfl, nofun⟩

theorem Sealed.mono (h : Sealed g around lo hi code) (haround : ∀ n, around n → around' n) :
    Sealed g around' lo hi code :=
  ⟨h.le, h.lines, fun n => ⟨(h.labels n).1, fun hn => ((h.labels n).2 hn).imp id (haround n)⟩⟩

theorem Sealed.append (ha : Sealed g around lo mid a) (hb : Sealed g around mid hi b) :
    Sealed g around lo hi (a ++ b) where
  le := Nat.le_trans ha.le hb.le
  lines := lined_append.mpr ⟨ha.lines, hb.lines⟩
  labels n := by
    have hle := ha.le
    have hle' := hb.le
    have hlabels := ha.labels n
    have hlabels' := hb.labels n
    grind

theorem Sealed.append_flat (ha : Sealed g around lo hi a) (hb : Flat g b) :
    Sealed g around lo hi (a ++ b) :=
  ha.append (.of_flat hb)

end Sealed

section Places

variable {p : Place} {span : Span} {ty : Ty}

def Place.Near : Place → Prop
  | .var v | .element v _ => v.offset ≤ 0xFFFF
  | .void | .value _ | .deref _ => True

theorem FlatLine.access {v : Var} (h : v.offset ≤ 0xFFFF) (a : Access) : FlatLine g (v.access a) := by
  unfold Var.access
  cases v.onFrame with
  | true => exact .onFrame h
  | false => exact .inData h

theorem flat_load (hp : p.Near) (h : p.load span = .ok (code, ty)) : Flat g code := by
  cases p with
  | void => cases h
  | value ty =>
    cases h
    exact flat_nil
  | var v | element v n =>
    simp only [Place.load] at h
    split at h
    all_goals
      cases h
      simp [FlatLine.access hp]
  | deref ty =>
    cases h
    simp [Opcode.layout]

theorem flat_handle (hp : p.Near) (h : p.handle span = .ok (code, ty)) : Flat g code := by
  cases p with
  | void | value => cases h
  | var v =>
    simp only [Place.handle] at h
    split at h
    next => cases h
    next =>
      cases h
      simp [FlatLine.access hp]
  | element v n =>
    simp only [Place.handle] at h
    split at h
    next =>
      cases h
      simp [FlatLine.access hp]
    next => cases h
  | deref ty =>
    cases h
    simp [Opcode.layout]

theorem flat_address (hp : p.Near) (h : p.address span = .ok (code, ty)) : Flat g code := by
  cases p with
  | void | value => cases h
  | var v | element v n =>
    cases h
    simp [FlatLine.access hp]
  | deref ty =>
    cases h
    simp [Opcode.layout]

theorem flat_discard (p : Place) : Flat g p.discard := by
  cases p with
  | void | var => exact flat_nil
  | value | element | deref => simp [Place.discard, Opcode.layout]

theorem flat_scale (stride : Nat) : Flat g (scale stride) := by
  unfold scale
  split
  next => exact flat_nil
  next => simp [Opcode.layout]

theorem flat_part (part : Place.Part) : Flat g part.code := by
  unfold Place.Part.code
  split
  all_goals simp [flat_scale, Opcode.layout]

theorem flat_arithmetic (op : Binary) (left right : Ty) : Flat g (arithmetic op left right).1 := by
  simp only [arithmetic]
  split
  next => simp [Opcode.layout]
  next =>
    split
    next =>
      split
      all_goals simp [Opcode.layout]
    next => simp [flat_scale, Opcode.layout]

theorem flat_stepCode (ty : Ty) (up before : Bool) : Flat g (stepCode ty up before) := by
  unfold stepCode
  split
  next =>
    cases before
    all_goals simp [Opcode.layout]
  next => simp [Opcode.layout]

theorem flat_subscript {part : Place.Part} (hp : p.Near) (h : p.subscript span = .ok (code, part)) :
    Flat g code ∧ part.place.Near := by
  obtain ⟨rfl, v, ⟨rfl, rfl⟩ | ⟨n, rfl, rfl⟩⟩ | ⟨ty, hload, rfl⟩ := Place.subscript_eq_ok h
  · exact ⟨flat_nil, hp⟩
  · exact ⟨flat_nil, hp⟩
  · exact ⟨flat_load hp hload, trivial⟩

theorem flat_callCode {name : String} {target : Callee} {argc : Nat} (htarget : callee ctx name span = .ok target)
    (h : callCode target name span argc = .ok (code, p))
    : Flat ctx.globals code ∧ p.Near := by
  obtain ⟨f, hf, -, rfl, rfl⟩ | ⟨c, rfl, hjump⟩ := callCode_eq_ok htarget h
  · refine ⟨by simp [FlatLine.call (Option.isSome_of_eq_some hf)], ?_⟩
    split <;> trivial
  · constructor
    · split at hjump
      · simp [hjump]
      · simp [hjump.2]
    · unfold Call.place
      split
      next => trivial
      next => split <;> trivial

end Places

def Context.Near (ctx : Context) (b : Body) : Prop :=
  ∀ x v, ctx.var? b x = some v → v.offset ≤ 0xFFFF

theorem Context.Near.of_locals {b b' : Body} (h : ctx.Near b) (hlocals : b'.locals = b.locals) :
    ctx.Near b' := by
  intro x v hv
  rw [Context.var?, hlocals] at hv
  exact h x v hv

def Expr.Seals (ctx : Context) (e : Expr) : Prop :=
  ∀ b code p b', e.emit ctx b = .ok ((code, p), b') → ctx.Near b →
    Sealed ctx.globals (fun _ => False) b.labels b'.labels code ∧ p.Near

namespace Expr

variable {span : Span} {b b' : Body} {ty : Ty}

def Closes (ctx : Context) (_ : Expr) (b : Body) (code : Code) (p : Place) (b' : Body) : Prop :=
  ctx.Near b →
    ctx.Near b' ∧ Sealed ctx.globals (fun _ => False) b.labels b'.labels code ∧ p.Near

theorem Values.closes (h : e.Values (Closes ctx) span b code ty b') (hnear : ctx.Near b) :
    ctx.Near b' ∧ Sealed ctx.globals (fun _ => False) b.labels b'.labels code := by
  obtain ⟨c, p, c', hc, hload, rfl⟩ := h
  obtain ⟨hnear', hsealed, hp⟩ := hc hnear
  exact ⟨hnear', hsealed.append_flat (flat_load hp hload)⟩

theorem Objects.closes (h : e.Objects (Closes ctx) span b code ty b') (hnear : ctx.Near b) :
    ctx.Near b' ∧ Sealed ctx.globals (fun _ => False) b.labels b'.labels code := by
  obtain ⟨c, p, c', hc, hhandle, rfl⟩ := h
  obtain ⟨hnear', hsealed, hp⟩ := hc hnear
  exact ⟨hnear', hsealed.append_flat (flat_handle hp hhandle)⟩

theorem Arguments.closes {args : List Expr} (h : Expr.Arguments (Closes ctx) span args b code b')
    (hnear : ctx.Near b)
    : ctx.Near b' ∧ Sealed ctx.globals (fun _ => False) b.labels b'.labels code := by
  induction args generalizing b code with
  | nil =>
    obtain ⟨rfl, rfl⟩ := h
    exact ⟨hnear, .of_flat flat_nil⟩
  | cons arg args ih =>
    obtain ⟨c1, ty, b1, c2, harg, hargs, rfl⟩ := h
    obtain ⟨hnear1, hsealed1⟩ := harg.closes hnear
    obtain ⟨hnear2, hsealed2⟩ := ih hargs hnear1
    exact ⟨hnear2, hsealed1.append hsealed2⟩

theorem flat_unaryCode (op : Unary) : Flat ctx.globals op.code := by
  cases op <;> simp [Unary.code, Opcode.layout]

theorem closes_logic {both : Bool} (h1 : left.Values (Closes ctx) span b c1 ty1 b1)
    (h2 : right.Values (Closes ctx) span (b1.skip 2) c2 ty2 b')
    : Closes ctx (.logic both span left right) b
        (logicCode both c1 c2 (.fresh (b1.labels + 1)) (.fresh (b1.labels + 2))) (.value .number) b' := by
  intro hnear
  obtain ⟨hnear1, hl⟩ := h1.closes hnear
  obtain ⟨hnear2, hr⟩ := h2.closes (hnear1.of_locals rfl)
  have hle1 := hl.le
  have hle2 := hr.le
  refine ⟨hnear2, ⟨?_, ?_, ?_⟩, trivial⟩
  · simp only [Body.skip] at hle2
    omega
  · cases both <;> simp [logicCode, hl.lines, hr.lines]
  · intro n
    have hlabels1 := hl.labels n
    have hlabels2 := hr.labels n
    simp only [logicCode, placed_append, aims_append, List.count_append, List.mem_append]
    grind [Body.skip]

theorem closes_ternary {cond yes no : Expr} {b2 : Body} {c3 : Code} {ty3 : Ty}
    (h1 : cond.Values (Closes ctx) span b c1 ty1 b1)
    (h2 : yes.Values (Closes ctx) span (b1.skip 2) c2 ty2 b2)
    (h3 : no.Values (Closes ctx) span b2 c3 ty3 b')
    : Closes ctx (.ternary span cond yes no) b (c1 ++ [.op .jz [.label (.fresh (b1.labels + 1))]] ++ c2 ++
        [.op .jmp [.label (.fresh (b1.labels + 2))], .label (.fresh (b1.labels + 1))] ++ c3 ++
        [.label (.fresh (b1.labels + 2))]) (.value ty2) b' := by
  intro hnear
  obtain ⟨hnear1, hc⟩ := h1.closes hnear
  obtain ⟨hnear2, hy⟩ := h2.closes (hnear1.of_locals rfl)
  obtain ⟨hnear3, hn⟩ := h3.closes hnear2
  have hle1 := hc.le
  have hle2 := hy.le
  have hle3 := hn.le
  refine ⟨hnear3, ⟨?_, ?_, ?_⟩, trivial⟩
  · simp only [Body.skip] at hle2
    omega
  · simp [hc.lines, hy.lines, hn.lines]
  · intro n
    have hlabels1 := hc.labels n
    have hlabels2 := hy.labels n
    have hlabels3 := hn.labels n
    grind [Body.skip]

theorem compositional_closes (ctx : Context) : Expr.Compositional ctx (Closes ctx) where
  num _ _ hnear := ⟨hnear, .of_flat (by simp), trivial⟩
  str _ _ hnear := ⟨hnear, .of_flat (by simp), trivial⟩
  name hv hnear := ⟨hnear, .of_flat flat_nil, hnear _ _ hv⟩
  call htarget hargs hjump hnear := by
    obtain ⟨hnear', hsealed⟩ := hargs.closes hnear
    obtain ⟨hflat, hp⟩ := flat_callCode htarget hjump
    exact ⟨hnear', hsealed.append_flat hflat, hp⟩
  index {_ _ _ _ _ _ _ _ part _ _ _} hbase hpart hsub hnear := by
    obtain ⟨hnear1, hsealed, hp⟩ := hbase hnear
    obtain ⟨hpointer, hpart⟩ := flat_subscript hp hpart
    obtain ⟨hnear2, hsealed2⟩ := hsub.closes hnear1
    exact ⟨hnear2, ((hsealed.append_flat hpointer).append hsealed2).append_flat (flat_part part), hpart⟩
  step h hnear := ⟨(h.closes hnear).1, (h.closes hnear).2.append_flat (flat_stepCode _ _ _), trivial⟩
  unary {op _ _ _ _ _ _} _ h hnear :=
    ⟨(h.closes hnear).1, (h.closes hnear).2.append_flat (flat_unaryCode op), by cases op <;> trivial⟩
  address h haddress hnear := by
    obtain ⟨hnear', hsealed, hp⟩ := h hnear
    exact ⟨hnear', hsealed.append_flat (flat_address hp haddress), trivial⟩
  binary h1 h2 hnear := by
    obtain ⟨hnear1, hs1⟩ := h1.closes hnear
    obtain ⟨hnear2, hs2⟩ := h2.closes hnear1
    exact ⟨hnear2, (hs1.append hs2).append_flat (flat_arithmetic _ _ _), trivial⟩
  logic := closes_logic
  ternary := closes_ternary
  assign h1 h2 hnear := by
    obtain ⟨hnear1, hs1⟩ := h1.closes hnear
    obtain ⟨hnear2, hs2⟩ := h2.closes hnear1
    exact ⟨hnear2, (hs1.append hs2).append_flat (by simp [Opcode.layout]), trivial⟩
  update h1 h2 hnear := by
    obtain ⟨hnear1, hs1⟩ := h1.closes hnear
    obtain ⟨hnear2, hs2⟩ := h2.closes hnear1
    have hread := hs1.append_flat (b := [.op .dup, .op .load]) (by simp [Opcode.layout])
    exact ⟨hnear2, ((hread.append hs2).append_flat (flat_arithmetic _ _ _)).append_flat (by simp [Opcode.layout]),
      trivial⟩
  comma h1 h2 hnear := by
    obtain ⟨hnear1, hs1, -⟩ := h1 hnear
    obtain ⟨hnear2, hs2, hp⟩ := h2 hnear1
    exact ⟨hnear2, (hs1.append_flat (flat_discard _)).append hs2, hp⟩

theorem seals (ctx : Context) (e : Expr) : e.Seals ctx :=
  fun b code p b' h hnear => ((compositional_closes ctx).has e b code p b' h hnear).2

theorem Loads.sealed (h : e.Loads ctx span b code ty b') (hnear : ctx.Near b) :
    Sealed ctx.globals (fun _ => False) b.labels b'.labels code :=
  ((((compositional_closes ctx).has e).values h).closes hnear).2

theorem Handles.sealed (h : e.Handles ctx span b code ty b') (hnear : ctx.Near b) :
    Sealed ctx.globals (fun _ => False) b.labels b'.labels code :=
  ((((compositional_closes ctx).has e).objects h).closes hnear).2

end Expr

end Source
end Handheld
