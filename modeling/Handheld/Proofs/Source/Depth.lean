import Handheld.Proofs.Source.Balance
import Handheld.Proofs.Source.Emission
import Handheld.Source.Compile

/-!
Expressions leave as many values on the stack as their places hold.
-/
namespace Handheld.Source

open Asm

variable {a c1 c2 : Code} {k t l : Nat} {b1 : Body} {ty1 ty2 : Ty}

variable {code : Code} {p : Place} {span : Span} {ty : Ty} {e left right : Expr}

def Assignable (lo hi : Nat) (P : Depths → Prop) : Prop :=
  lo ≤ hi ∧ ∃ δ : Nat → Nat, ∀ Δ : Depths,
    (∀ n, lo < n → n ≤ hi → Δ (.fresh n) = some (δ n)) → P Δ

def Depths.within (lo hi : Nat) (δ : Nat → Nat) : Depths
  | .fresh n => if lo < n ∧ n ≤ hi then some (δ n) else none
  | .named _ | .offset _ => none

section Assignable

variable {lo mid hi : Nat} {P Q : Depths → Prop}

theorem Depths.mem_of_within {δ : Nat → Nat} {l : Label} {d : Nat} (h : within lo hi δ l = some d) :
    ∃ n, l = .fresh n ∧ lo < n ∧ n ≤ hi := by
  cases l with
  | fresh n => exact ⟨n, rfl, (Option.ite_none_right_eq_some.mp h).1⟩
  | named name => cases h
  | offset n => cases h

theorem Assignable.exists_depths (h : Assignable lo hi P) :
    ∃ Δ, P Δ ∧ ∀ l d, Δ l = some d → ∃ n, l = .fresh n ∧ lo < n ∧ n ≤ hi := by
  obtain ⟨-, δ, hδ⟩ := h
  refine ⟨.within lo hi δ, hδ _ ?_, fun l d => Depths.mem_of_within⟩
  intro n hlo hhi
  exact if_pos ⟨hlo, hhi⟩

theorem Assignable.of_forall (h : ∀ Δ, P Δ) : Assignable lo lo P :=
  ⟨Nat.le_refl lo, fun _ => 0, fun Δ _ => h Δ⟩

theorem Assignable.fresh (lo d : Nat) : Assignable lo (lo + 1) fun Δ => Δ (.fresh (lo + 1)) = some d :=
  ⟨Nat.le_succ lo, fun _ => d, fun _ h => h (lo + 1) (by omega) (by omega)⟩

theorem Assignable.mono (h : Assignable lo hi P) (hPQ : ∀ Δ, P Δ → Q Δ) : Assignable lo hi Q := by
  obtain ⟨hle, δ, hδ⟩ := h
  exact ⟨hle, δ, fun Δ hΔ => hPQ Δ (hδ Δ hΔ)⟩

theorem Assignable.and (hP : Assignable lo mid P) (hQ : Assignable mid hi Q) : Assignable lo hi fun Δ => P Δ ∧ Q Δ := by
  obtain ⟨hle, δ, hδ⟩ := hP
  obtain ⟨hle', δ', hδ'⟩ := hQ
  refine ⟨by omega, fun n => if n ≤ mid then δ n else δ' n, fun Δ hΔ => ⟨hδ Δ ?_, hδ' Δ ?_⟩⟩
  · intro n hlo hmid
    simp only [hΔ n hlo (by omega), hmid, ↓reduceIte]
  · intro n hmid hhi
    have hlt : ¬ n ≤ mid := by omega
    simp only [hΔ n (by omega) hhi, hlt, ↓reduceIte]

end Assignable

def Goes (functions : Functions) (Δ : Depths) (result d : Nat) (code : Code) (d' : Nat) : Prop :=
  ∃ ds, Fits functions Δ result d code ds d'

section Goes

variable {functions : Functions} {Δ : Depths} {result d d1 d' : Nat}

theorem Goes.nil : Goes functions Δ result d [] d :=
  ⟨[], .nil⟩

theorem Goes.cons {line : Line} {code : Code} (h : Passes functions Δ result d line d1)
    (hcode : Goes functions Δ result d1 code d')
    : Goes functions Δ result d (line :: code) d' := by
  obtain ⟨ds, hds⟩ := hcode
  exact ⟨d :: ds, .cons h hds⟩

theorem Goes.append {b : Code} (ha : Goes functions Δ result d a d1) (hb : Goes functions Δ result d1 b d')
    : Goes functions Δ result d (a ++ b) d' := by
  obtain ⟨ds, hds⟩ := ha
  obtain ⟨ds', hds'⟩ := hb
  exact ⟨ds ++ ds', hds.append hds'⟩

theorem Goes.op {opcode : Opcode} {args : List Arg} {code : Code}
    (hstraight : isStraight opcode) (heffect : opcode.effect = (t, l)) (hd : d = k + t)
    (hcode : Goes functions Δ result (k + l) code d')
    : Goes functions Δ result d (.op opcode args :: code) d' := by
  have h := @Passes.op functions Δ result k opcode args hstraight
  rw [heffect] at h
  subst hd
  exact .cons h hcode

theorem Goes.pushInt {n : Int32} (hcode : Goes functions Δ result (d + 1) code d') :
    Goes functions Δ result d (pushInt n :: code) d' :=
  .cons (passes_pushInt n) hcode

theorem Goes.access {v : Var} {a : Access}
    (heffect : (Opcode.access a v.ty.width v.onFrame).effect = (t, l)) (hd : d = k + t)
    (hcode : Goes functions Δ result (k + l) code d')
    : Goes functions Δ result d (v.access a :: code) d' :=
  .op rfl heffect hd hcode

def Place.held : Place → Nat
  | .void | .var _ => 0
  | .value _ | .element _ _ | .deref _ => 1

theorem goes_load (h : p.load span = .ok (code, ty)) : Goes functions Δ result (d + p.held) code (d + 1) := by
  cases p with
  | void => cases h
  | value ty =>
    cases h
    exact .nil
  | var v =>
    simp only [Place.load] at h
    split at h
    next =>
      cases h
      exact .pushInt (.access rfl rfl .nil)
    next =>
      cases h
      exact .access rfl rfl .nil
  | element v n =>
    simp only [Place.load] at h
    split at h
    all_goals
      cases h
      exact .access rfl rfl .nil
  | deref ty =>
    cases h
    exact .op rfl rfl rfl (.op rfl rfl rfl .nil)

theorem goes_handle (h : p.handle span = .ok (code, ty)) : Goes functions Δ result (d + p.held) code (d + 1) := by
  cases p with
  | void | value => cases h
  | var v =>
    simp only [Place.handle] at h
    split at h
    next => cases h
    next =>
      cases h
      exact .access rfl rfl .nil
  | element v n =>
    simp only [Place.handle] at h
    split at h
    next =>
      cases h
      exact .access rfl rfl .nil
    next => cases h
  | deref ty =>
    cases h
    exact .op rfl rfl rfl .nil

theorem goes_address (h : p.address span = .ok (code, ty)) : Goes functions Δ result (d + p.held) code (d + 1) := by
  cases p with
  | void | value => cases h
  | var v =>
    cases h
    exact .pushInt (.access rfl rfl .nil)
  | element v n =>
    cases h
    exact .access rfl rfl .nil
  | deref ty =>
    cases h
    exact .op rfl rfl rfl .nil

theorem goes_discard (p : Place) : Goes functions Δ result (d + p.held) p.discard d := by
  cases p with
  | void | var => exact .nil
  | value | element | deref => exact .op rfl rfl rfl .nil

theorem goes_scale (stride : Nat) : Goes functions Δ result (d + 1) (scale stride) (d + 1) := by
  unfold scale
  split
  next => exact .nil
  next => exact .pushInt (.op rfl rfl rfl .nil)

def Place.Part.below (part : Place.Part) : Nat :=
  if part.added then 1 else 0

theorem goes_subscript {p : Place} {span : Span} {pointer : Code} {part : Place.Part}
    (h : p.subscript span = .ok (pointer, part))
    : Goes functions Δ result (d + p.held) pointer (d + part.below) ∧ part.place.held = 1 := by
  obtain ⟨rfl, v, ⟨rfl, rfl⟩ | ⟨n, rfl, rfl⟩⟩ | ⟨ty, hload, rfl⟩ := Place.subscript_eq_ok h
  · exact ⟨.nil, rfl⟩
  · exact ⟨.nil, rfl⟩
  · exact ⟨goes_load hload, rfl⟩

theorem goes_part (part : Place.Part) : Goes functions Δ result (d + part.below + 1) part.code (d + 1) := by
  unfold Place.Part.code Place.Part.below
  split
  next => exact (goes_scale _).append (.op rfl rfl rfl .nil)
  next => exact (goes_scale _).append .nil

theorem goes_arithmetic (op : Binary) (left right : Ty) :
    Goes functions Δ result (d + 2) (arithmetic op left right).1 (d + 1) := by
  simp only [arithmetic]
  split
  next => exact .op rfl rfl rfl .nil
  next =>
    split
    next =>
      split
      next => exact .op rfl rfl rfl .nil
      next => exact .op rfl rfl rfl (.pushInt (.op rfl rfl rfl .nil))
    next => exact (goes_scale _).append (.op rfl rfl rfl .nil)

theorem goes_stepCode (ty : Ty) (up before : Bool) :
    Goes functions Δ result (d + 1) (stepCode ty up before) (d + 1) := by
  unfold stepCode
  split
  next =>
    dsimp only
    refine .append (.op rfl rfl rfl (.op rfl rfl rfl (.pushInt (.op rfl rfl rfl
      (.op rfl rfl rfl .nil))))) ?_
    split
    next => exact .nil
    next => exact .pushInt (.op rfl rfl rfl .nil)
  next => exact .op rfl rfl rfl .nil

theorem held_place (c : Call) : (Call.place c).held = results c := by
  unfold Call.place results
  split
  next h => simp_all [Place.held]
  next h =>
    split <;> simp_all [Place.held]

theorem goes_callCode {ctx : Context} {name : String} {target : Callee} {argc : Nat} {jump : Code}
    {place : Place} (htarget : callee ctx name span = .ok target)
    (h : callCode target name span argc = .ok (jump, place))
    : Goes ctx.globals.functions Δ result (d + argc) jump (d + place.held) := by
  obtain ⟨f, hf, rfl, rfl, rfl⟩ | ⟨c, rfl, hjump⟩ := callCode_eq_ok htarget h
  · have hheld : (if f.ret.isVoid then Place.void else .value f.ret).held = f.results := by
      unfold Function.results
      split <;> rfl
    rw [hheld]
    exact .cons (.call hf) .nil
  · rw [held_place]
    split at hjump
    next hvariadic =>
      cases hjump
      exact ⟨_, .variadic hvariadic .nil⟩
    next hvariadic =>
      obtain ⟨rfl, rfl⟩ := hjump
      exact .cons (.library (by simpa using hvariadic)) .nil

end Goes

def Segment (functions : Functions) (result lo hi d : Nat) (code : Code) (d' : Nat) : Prop :=
  Assignable lo hi fun Δ => Goes functions Δ result d code d'

section Segment

variable {functions : Functions} {result lo mid hi d d1 d' : Nat}

theorem Segment.of_goes (h : ∀ Δ, Goes functions Δ result d code d') : Segment functions result lo lo d code d' :=
  Assignable.of_forall h

theorem Segment.append {b : Code} (ha : Segment functions result lo mid d a d1)
    (hb : Segment functions result mid hi d1 b d')
    : Segment functions result lo hi d (a ++ b) d' :=
  (ha.and hb).mono fun _ h => h.1.append h.2

theorem Segment.append_goes {b : Code} (ha : Segment functions result lo hi d a d1)
    (hb : ∀ Δ, Goes functions Δ result d1 b d')
    : Segment functions result lo hi d (a ++ b) d' :=
  ha.append (.of_goes hb)

end Segment

def Expr.Cuts (ctx : Context) (result : Nat) (_ : Expr) (b : Body) (code : Code) (place : Place) (b' : Body) : Prop :=
  ∀ d, Segment ctx.globals.functions result b.labels b'.labels d code (d + place.held)

def Expr.Segmented (ctx : Context) (result : Nat) (e : Expr) : Prop :=
  e.Has ctx (Cuts ctx result)

namespace Expr

variable {ctx : Context} {result d : Nat} {b b' : Body}

theorem Values.segment (h : e.Values (Cuts ctx result) span b code ty b') :
    Segment ctx.globals.functions result b.labels b'.labels d code (d + 1) := by
  obtain ⟨c, p, c', hc, hload, rfl⟩ := h
  exact (hc d).append_goes fun Δ => goes_load hload

theorem Objects.segment (h : e.Objects (Cuts ctx result) span b code ty b') :
    Segment ctx.globals.functions result b.labels b'.labels d code (d + 1) := by
  obtain ⟨c, p, c', hc, hhandle, rfl⟩ := h
  exact (hc d).append_goes fun Δ => goes_handle hhandle

theorem Arguments.segment {args : List Expr} (h : Expr.Arguments (Cuts ctx result) span args b code b') :
    Segment ctx.globals.functions result b.labels b'.labels d code (d + args.length) := by
  induction args generalizing b code d with
  | nil =>
    obtain ⟨rfl, rfl⟩ := h
    exact .of_goes fun Δ => .nil
  | cons arg args ih =>
    obtain ⟨c1, ty, b1, c2, harg, hargs, rfl⟩ := h
    rw [List.length_cons, Nat.add_comm args.length, ← Nat.add_assoc]
    exact harg.segment.append (ih hargs)

theorem goes_unaryCode {op : Unary} {Δ : Depths} :
    Goes ctx.globals.functions Δ result (d + 1) op.code (d + (op.place ty).held) := by
  cases op with
  | neg | not | complement => exact .op rfl rfl rfl .nil
  | plus | deref | address => exact .nil

theorem cuts_logic {both : Bool} (h1 : left.Values (Cuts ctx result) span b c1 ty1 b1)
    (h2 : right.Values (Cuts ctx result) span (b1.skip 2) c2 ty2 b')
    : Cuts ctx result (.logic both span left right) b
        (logicCode both c1 c2 (.fresh (b1.labels + 1)) (.fresh (b1.labels + 2))) (.value .number) b' := by
  intro d
  have hl := h1.segment (d := d)
  have hr := h2.segment (d := d)
  refine (hl.and ((Assignable.fresh b1.labels d).and
    ((Assignable.fresh (b1.labels + 1) (d + 1)).and hr))).mono ?_
  rintro Δ ⟨hcode1, hshort, hstop, hcode2⟩
  have hjump : Passes ctx.globals.functions Δ result (d + 1)
      (.op (if both then .jz else .jnz) [.label (.fresh (b1.labels + 1))]) d := by
    cases both
    · exact .jnz hshort
    · exact .jz hshort
  exact ((hcode1.append (.cons hjump .nil)).append hcode2).append (.cons hjump (.pushInt
    (.cons (.jmp hstop) (.cons (.label hshort) (.pushInt (.cons (.label hstop) .nil))))))

theorem cuts_ternary {cond yes no : Expr} {b2 : Body} {c3 : Code} {ty3 : Ty}
    (h1 : cond.Values (Cuts ctx result) span b c1 ty1 b1) (h2 : yes.Values (Cuts ctx result) span (b1.skip 2) c2 ty2 b2)
    (h3 : no.Values (Cuts ctx result) span b2 c3 ty3 b')
    : Cuts ctx result (.ternary span cond yes no) b (c1 ++ [.op .jz [.label (.fresh (b1.labels + 1))]] ++ c2 ++
        [.op .jmp [.label (.fresh (b1.labels + 2))], .label (.fresh (b1.labels + 1))] ++ c3 ++
        [.label (.fresh (b1.labels + 2))]) (.value ty2) b' := by
  intro d
  have hc := h1.segment (d := d)
  have hy := h2.segment (d := d)
  have hn := h3.segment (d := d)
  refine (hc.and ((Assignable.fresh b1.labels d).and
    ((Assignable.fresh (b1.labels + 1) (d + 1)).and (hy.and hn)))).mono ?_
  rintro Δ ⟨hcode1, hother, hstop, hcode2, hcode3⟩
  exact ((((hcode1.append (.cons (.jz hother) .nil)).append hcode2).append
    (.cons (.jmp hstop) (.cons (.label hother) .nil))).append hcode3).append
    (.cons (.label hstop) .nil)

theorem compositional_cuts (ctx : Context) (result : Nat) : Expr.Compositional ctx (Cuts ctx result) where
  num _ _ _ := .of_goes fun _ => .pushInt .nil
  str _ _ _ := .of_goes fun _ => .op rfl rfl rfl .nil
  name _ _ := .of_goes fun _ => .nil
  call htarget hargs hjump _ := hargs.segment.append_goes fun _ => goes_callCode htarget hjump
  index {_ _ _ _ _ _ _ _ part _ _ _} hbase hpart hsub d := by
    rw [(@goes_subscript ctx.globals.functions (fun _ => none) result d _ _ _ _ hpart).2]
    exact (((hbase d).append_goes fun Δ => (goes_subscript hpart).1).append hsub.segment).append_goes
      fun Δ => goes_part part
  step h _ := h.segment.append_goes fun _ => goes_stepCode _ _ _
  unary _ h _ := h.segment.append_goes fun _ => goes_unaryCode
  address h haddress d := (h d).append_goes fun _ => goes_address haddress
  binary h1 h2 _ := (h1.segment.append h2.segment).append_goes fun _ => goes_arithmetic _ _ _
  logic := cuts_logic
  ternary := cuts_ternary
  assign h1 h2 _ := (h1.segment.append h2.segment).append_goes fun _ => .op rfl rfl rfl .nil
  update h1 h2 _ :=
    (((h1.segment.append_goes fun _ => .op rfl rfl rfl (.op rfl rfl rfl .nil)).append h2.segment).append_goes
      fun _ => goes_arithmetic _ _ _).append_goes fun _ => .op rfl rfl rfl .nil
  comma h1 h2 d := ((h1 d).append_goes fun _ => goes_discard _).append (h2 d)

theorem segmented (ctx : Context) (result : Nat) (e : Expr) : e.Segmented ctx result :=
  (compositional_cuts ctx result).has e

end Expr

end Handheld.Source
