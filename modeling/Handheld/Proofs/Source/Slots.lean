import Handheld.Proofs.Source.Assembly
import Handheld.Proofs.Source.Variables

/-!
Where variables are stored: globals in the data space, and in a frame parameters, then locals and operands of `switch`.
-/
namespace Handheld

namespace Source

open Asm

variable {name : String} {dims : List Nat} {span : Span} {params : List Param}

structure Slot where
  owner : Owner
  start : Nat

def Slot.stop (s : Slot) : Nat :=
  s.start + s.owner.size

def Slot.Apart (s t : Slot) : Prop :=
  s.stop ≤ t.start ∨ t.stop ≤ s.start

def Tiled (lo : Nat) : List Slot → Nat → Prop
  | [], hi => lo = hi
  | s :: slots, hi => s.start = lo ∧ Tiled s.stop slots hi

section Tiled

variable {lo mid hi : Nat} {slots slots' : List Slot}

theorem Tiled.append (h : Tiled lo slots mid) (h' : Tiled mid slots' hi) : Tiled lo (slots ++ slots') hi := by
  induction slots generalizing lo with
  | nil =>
    obtain rfl : lo = mid := h
    exact h'
  | cons s slots ih => exact ⟨h.1, ih h.2⟩

theorem Tiled.le (h : Tiled lo slots hi) : lo ≤ hi := by
  induction slots generalizing lo with
  | nil => exact Nat.le_of_eq h
  | cons s slots ih =>
    have hle := ih h.2
    have hstart := h.1
    simp only [Slot.stop] at hle
    omega

theorem Tiled.inside (h : Tiled lo slots hi) : ∀ s ∈ slots, lo ≤ s.start ∧ s.stop ≤ hi := by
  induction slots generalizing lo with
  | nil => simp
  | cons s slots ih =>
    obtain ⟨hstart, hrest⟩ := h
    have hle := hrest.le
    rw [List.forall_mem_cons]
    refine ⟨⟨Nat.le_of_eq hstart.symm, hle⟩, ?_⟩
    intro t ht
    have hinside := ih hrest t ht
    simp only [Slot.stop] at hinside ⊢
    omega

theorem Tiled.eq_sum (h : Tiled lo slots hi) : hi = lo + (slots.map (·.owner.size)).sum := by
  induction slots generalizing lo with
  | nil => exact h.symm
  | cons s slots ih =>
    rw [ih h.2, Slot.stop, h.1, List.map_cons, List.sum_cons, Nat.add_assoc]

theorem Tiled.apart (h : Tiled lo slots hi) : slots.Pairwise Slot.Apart := by
  induction slots generalizing lo with
  | nil => exact .nil
  | cons s slots ih =>
    apply List.Pairwise.cons
    · intro t ht
      exact .inl (h.2.inside t ht).1
    · exact ih h.2

end Tiled

section Globals

variable {g g' : Globals} {x : Variable} {v : Var}

def Variable.owner (x : Variable) : Owner :=
  .var x.name x.ty x.extents

def Globals.slots (g : Globals) : List Slot :=
  g.vars.reverse.map fun p => { owner := .var p.1 p.2.ty p.2.dims, start := p.2.offset }

theorem Globals.slots_congr (h : g'.data = g.data) : g'.slots = g.slots ∧ g'.size = g.size := by
  simp only [data, Prod.mk.injEq] at h
  exact ⟨by rw [slots, slots, h.1], h.2.1⟩

theorem Globals.Adds.vars_eq (h : g.Adds x v g') : g'.vars = (x.name, v) :: g.vars := by
  cases h with
  | plain _ _ hdeclare =>
    obtain ⟨-, -, -, -, rfl⟩ := declare_eq_ok_iff.mp hdeclare
    rfl
  | filled _ _ hdeclare hset =>
    obtain ⟨-, -, -, -, rfl⟩ := declare_eq_ok_iff.mp hdeclare
    obtain ⟨_, -, rfl⟩ := setContents_eq_ok_iff.mp hset
    rfl

theorem Globals.Adds.declared (h : g.Adds x v g') (hx : x.Unwrapped) : v.ty = x.ty ∧ v.dims = x.extents := by
  cases h with
  | plain _ hdims hdeclare | filled _ hdims hdeclare _ =>
    obtain ⟨-, -, -, rfl, -⟩ := declare_eq_ok_iff.mp hdeclare
    exact ⟨rfl, hdims hx⟩

theorem Globals.Adds.unwrapped (h : g.Adds x v g') (hx : x.Unwrapped) : v.Unwrapped := by
  obtain ⟨hty, hdims⟩ := h.declared hx
  rw [Var.Unwrapped, hty, hdims]
  exact hx.2

/-- Where a variable is put, as long as no word wraps. -/
theorem Globals.Adds.place (h : g.Adds x v g') (hbelow : Memory.dataStart.toNat + g.size ≤ Memory.heapStart.toNat)
    (hv : v.Unwrapped)
    : v.offset = Memory.dataStart.toNat + g.size ∧ v.offset + v.size ≤ Memory.heapStart.toNat
        ∧ g'.size = g.size + v.size := by
  cases h with
  | plain _ _ hdeclare => exact place_of_declare hdeclare hbelow hv
  | filled _ _ hdeclare hset =>
    have hplace := place_of_declare hdeclare hbelow hv
    obtain ⟨_, -, rfl⟩ := setContents_eq_ok_iff.mp hset
    exact hplace

theorem Globals.Gathers.unwrapped {xs : List Variable} (h : g.Gathers xs g') (hg : g.Unwrapped)
    (hxs : ∀ x ∈ xs, x.Unwrapped)
    : g'.Unwrapped := by
  induction h with
  | done => exact hg
  | aside hdata _ ih =>
    simp only [data, Prod.mk.injEq] at hdata
    exact ih (by rw [Globals.Unwrapped, hdata.1]; exact hg) hxs
  | var hadds _ ih =>
    obtain ⟨hx, hxs⟩ := List.forall_mem_cons.mp hxs
    refine ih ?_ hxs
    rw [Globals.Unwrapped, hadds.vars_eq]
    exact List.forall_mem_cons.mpr ⟨hadds.unwrapped hx, hg⟩

theorem Globals.Gathers.tiled {xs : List Variable} (h : g.Gathers xs g')
    (hbelow : Memory.dataStart.toNat + g.size ≤ Memory.heapStart.toNat) (hxs : ∀ x ∈ xs, x.Unwrapped)
    : ∃ slots, g'.slots = g.slots ++ slots ∧ slots.map (·.owner) = xs.map (·.owner)
      ∧ Tiled (Memory.dataStart.toNat + g.size) slots (Memory.dataStart.toNat + g'.size) := by
  induction h with
  | done => exact ⟨[], (List.append_nil _).symm, rfl, rfl⟩
  | aside hdata _ ih =>
    obtain ⟨hslots, hsize⟩ := slots_congr hdata
    have hrest := ih (by omega) hxs
    rwa [hslots, hsize] at hrest
  | @var g g1 g' x xs v hadds _ ih =>
    obtain ⟨hx, hxs⟩ := List.forall_mem_cons.mp hxs
    obtain ⟨hstart, hend, hsize⟩ := hadds.place hbelow (hadds.unwrapped hx)
    obtain ⟨hty, hdims⟩ := hadds.declared hx
    obtain ⟨slots, hrest, howners, htiled⟩ := ih (by omega) hxs
    refine ⟨⟨x.owner, v.offset⟩ :: slots, ?_, ?_, hstart, ?_⟩
    · rw [hrest, Globals.slots, Globals.slots, hadds.vars_eq, List.reverse_cons, List.map_append, List.append_assoc,
        Variable.owner, ← hty, ← hdims]
      rfl
    · rw [List.map_cons, List.map_cons, howners]
    · rw [hsize, (hadds.unwrapped hx).size_eq, hty, hdims, ← Nat.add_assoc, ← hstart] at htiled
      exact htiled

theorem tiled_of_survey {c : Cursor} (h : survey c = .ok g)
    (hwords : ∀ x ∈ variablesFrom (c.rest.length + 1) {} c, x.Unwrapped)
    : g.slots.map (·.owner) = (variablesFrom (c.rest.length + 1) {} c).map (·.owner)
      ∧ Tiled Memory.dataStart.toNat g.slots (Memory.dataStart.toNat + g.size) := by
  obtain ⟨slots, hslots, howners, htiled⟩ := (gathers_of_survey h).tiled (by decide) hwords
  obtain rfl : g.slots = slots := hslots
  exact ⟨howners, htiled⟩

end Globals

section Frames

def Slot.Serves (ls : Locals) (code : Code) (s : Slot) : Prop :=
  match s.owner with
  | .param x => ∃ v, ls.vars.lookup x = some v ∧ v.offset = s.start ∧ v.size ≤ Memory.paramSlot
  | .var x ty extents => ls.vars.lookup x = some { offset := s.start, ty := ty, dims := extents, onFrame := true }
  | .operand => SwitchesAt code s.start

structure Fills (slots : List Slot) (ls : Locals) (code : Code) (ls' : Locals) : Prop where
  tiled : Tiled ls.size slots ls'.size
  serves : ∀ s ∈ slots, s.Serves ls' code

variable {ls ls1 ls' : Locals} {code : Code} {owners : List Owner}

def Locals.Extends (ls ls' : Locals) : Prop :=
  ∀ x v, ls.vars.lookup x = some v → ls'.vars.lookup x = some v

theorem Locals.Grows.extends (h : ls.Grows ls') : ls.Extends ls' :=
  fun _ _ hv => h.lookup hv

theorem Slot.Serves.mono {s : Slot} (h : s.Serves ls code) (hls : ls.Extends ls') : s.Serves ls' code := by
  obtain ⟨owner, start⟩ := s
  cases owner with
  | param x =>
    obtain ⟨v, hv, hrest⟩ := h
    exact ⟨v, hls x v hv, hrest⟩
  | var x => exact hls x _ h
  | operand => exact h

theorem Fills.append {slots slots' : List Slot} (h : Fills slots ls code ls1) (h' : Fills slots' ls1 code ls')
    (hls : ls1.Extends ls') : Fills (slots ++ slots') ls code ls' := by
  refine ⟨h.tiled.append h'.tiled, ?_⟩
  intro s hs
  rcases List.mem_append.mp hs with hs | hs
  · exact (h.serves s hs).mono hls
  · exact h'.serves s hs

theorem Fills.single {s : Slot} (hstart : s.start = ls.size) (hstop : s.stop = ls'.size) (hserves : s.Serves ls' code) :
    Fills [s] ls code ls' := by
  refine ⟨⟨hstart, hstop⟩, ?_⟩
  rw [List.forall_mem_singleton]
  exact hserves

theorem Fills.nil : Fills [] ls code ls :=
  ⟨rfl, by simp⟩

theorem Locals.Claims.exists_fills (h : ls.Claims code owners ls') (hls : ls.Laid)
    (hwords : ∀ o ∈ owners, o.Unwrapped)
    : ∃ slots : List Slot, slots.map (·.owner) = owners ∧ Fills slots ls code ls' := by
  induction h with
  | nil => exact ⟨[], rfl, .nil⟩
  | @var name owners ls ls1 ls' ty extents dims span v hdims hdeclare hrest ih =>
    obtain ⟨howner, hrestwords⟩ := List.forall_mem_cons.mp hwords
    obtain rfl := hdims howner
    obtain ⟨w, hw, -, -, heq⟩ := declare_eq_ok_iff.mp hdeclare
    obtain rfl : w = v := congrArg Prod.fst heq
    have hv : w.Unwrapped := by
      rw [hw]
      exact howner.2
    obtain ⟨-, rfl, hls1⟩ := hls.declare hdeclare hv
    obtain ⟨slots, howners, hfills⟩ := ih hls1 hrestwords
    have hfirst : Fills [⟨.var name ty dims, ls.size⟩] ls code
        { ls with vars := Table.insert ls.vars name w, size := ls.size + w.size } := by
      refine .single rfl ?_ ?_
      · rw [hv.size_eq, hw]
        rfl
      · change List.lookup name _ = _
        rw [Table.lookup_insert, if_pos rfl, hw]
    exact ⟨_ :: slots, by rw [List.map_cons, howners], hfirst.append hfills hrest.grows.extends⟩
  | @operand owners ls ls1 ls' span temp hclaim hcode hrest ih =>
    obtain ⟨rfl, rfl, hls1⟩ := hls.claim hclaim
    obtain ⟨slots, howners, hfills⟩ := ih hls1 (List.forall_mem_cons.mp hwords).2
    have hfirst : Fills [⟨.operand, ls.size⟩] ls code { ls with size := ls.size + 4 } := .single rfl rfl hcode
    exact ⟨_ :: slots, by rw [List.map_cons, howners], hfirst.append hfills hrest.grows.extends⟩

end Frames

section Functions

variable {ls ls' : Locals} {code : Code}

def paramSlots (first : Nat) : List Param → List Slot
  | [] => []
  | p :: ps =>
    { owner := .param (p.name.getD "")
      start := Memory.frameHeader + Memory.paramSlot * first } :: paramSlots (first + 1) ps

theorem Locals.extends_insert (h : Table.contains ls.vars name = false) (v : Var) (size params : Nat) :
    ls.Extends { vars := Table.insert ls.vars name v, size := size, params := params } := by
  intro x w hw
  have hne : x ≠ name := by
    rintro rfl
    simp [Table.contains, hw] at h
  rw [Table.lookup_insert, if_neg hne, hw]

theorem fills_param {name : String} {ty : Ty} {span : Span} (h : ls.param name ty span = .ok ls')
    (hsize : ls.size = Memory.frameHeader + Memory.paramSlot * ls.params)
    (hroom : Memory.frameHeader + Memory.paramSlot * (ls.params + 1) ≤ 0xFFFF)
    : Fills [⟨.param name, Memory.frameHeader + Memory.paramSlot * ls.params⟩] ls code ls' := by
  obtain ⟨-, rfl⟩ := Locals.param_eq_ok h
  simp only [Memory.paramSlot] at hsize hroom
  have hoffset : (Memory.frameHeader + 4 * ls.params) % 0x10000 = ls.size := by omega
  refine .single hsize.symm ?_ ⟨_, by rw [Table.lookup_insert, if_pos rfl], ?_, ?_⟩
  · simp only [Slot.stop, Owner.size, Memory.paramSlot, hoffset]
    omega
  · simp only [Memory.paramSlot, hoffset, hsize]
  · rw [Var.size_of_scalar rfl]
    exact ty.size_le

theorem extends_addParams (h : addParams params ls = .ok ls') : ls.Extends ls' := by
  induction params generalizing ls with
  | nil =>
    cases h
    exact fun _ _ hv => hv
  | cons p ps ih =>
    obtain ⟨name, -, ls1, hparam, hrest⟩ := addParams_cons_eq_ok_iff.mp h
    obtain ⟨hnew, rfl⟩ := Locals.param_eq_ok hparam
    intro x v hv
    exact ih hrest x v (Locals.extends_insert hnew _ _ _ x v hv)

theorem fills_addParams (h : addParams params ls = .ok ls')
    (hsize : ls.size = Memory.frameHeader + Memory.paramSlot * ls.params)
    (hroom : Memory.frameHeader + Memory.paramSlot * ls'.params ≤ 0xFFFF)
    : Fills (paramSlots ls.params params) ls code ls' := by
  induction params generalizing ls with
  | nil =>
    cases h
    exact .nil
  | cons p ps ih =>
    have hcount := params_addParams h
    rw [List.length_cons] at hcount
    obtain ⟨name, hname, ls1, hparam, hrest⟩ := addParams_cons_eq_ok_iff.mp h
    have hfirst : Fills _ ls code ls1 := fills_param hparam hsize (by simp only [Memory.paramSlot] at hroom ⊢; omega)
    obtain ⟨-, rfl⟩ := Locals.param_eq_ok hparam
    rw [paramSlots, hname]
    refine hfirst.append (ih hrest ?_) (extends_addParams hrest)
    have hstop : _ = _ := hfirst.tiled.2
    exact hstop.symm

structure Compiled (g : Globals) (program : Code) (name : String) (ret : Ty) (params : List Param) (body : Stmt)
    (code : Code) (ls : Locals) : Prop where
  emit : ∃ labels ls0 b, addParams params {} = .ok ls0
    ∧ body.emit { globals := g, ret := ret, main := name == "main" } { labels := labels, locals := ls0 } = .ok (code, b)
    ∧ b.locals = ls
  frame : [.label (.named name), .op .func [.int ls.size, .int params.length]] ++ code <:+: program

variable {g : Globals} {program : Code} {ret : Ty} {body : Stmt}

def TopLevel.Unwrapped : TopLevel → Prop
  | missing _ => True
  | f@(function _ _ _ body) => f.slots ≤ 0xFFFF ∧ ∀ o ∈ body.owners, o.Unwrapped

theorem Compiled.fills (h : Compiled g program name ret params body code ls)
    (hwords : (TopLevel.function name ret params body).Unwrapped)
    : ∃ slots, slots.map (·.owner) = body.owners ∧ Fills (paramSlots 0 params ++ slots) {} code ls
        ∧ Memory.frameHeader + Memory.paramSlot * params.length ≤ ls.size := by
  obtain ⟨labels, ls0, b, hparams, hbody, rfl⟩ := h.emit
  have hcount : ls0.params = params.length := (params_addParams hparams).trans (Nat.zero_add _)
  have hroom : Memory.frameHeader + Memory.paramSlot * ls0.params ≤ 0xFFFF := hcount ▸ hwords.1
  obtain ⟨hlaid, hsize⟩ := laid_addParams .empty rfl hparams hroom
  obtain ⟨slots, howners, hfills⟩ := (body.emits hbody).claims.exists_fills hlaid hwords.2
  have hfirst : Fills (paramSlots 0 params) {} code ls0 := fills_addParams hparams rfl hroom
  refine ⟨slots, howners, hfirst.append hfills (Stmt.grows hbody).extends, ?_⟩
  rw [← hcount, ← hsize]
  exact hfills.tiled.le

theorem exists_compiled {labels : Nat} {fs : List TopLevel} {start functions : Code}
    (h : emitFunctions g labels fs = .ok functions) (hf : .function name ret params body ∈ fs)
    : ∃ code ls, Compiled g (start ++ functions) name ret params body code ls := by
  obtain ⟨above, own, below, labels, _, hemit, rfl⟩ := exists_emit_of_mem hf h
  obtain ⟨ls0, hparams, code, b, hbody, heq⟩ := TopLevel.emit_function_eq_ok_iff.mp hemit
  cases heq
  have hcount : b.locals.params = params.length := by
    rw [(Stmt.grows hbody).params_eq, params_addParams hparams, Nat.zero_add]
  refine ⟨code, b.locals, ⟨labels, ls0, b, hparams, hbody, rfl⟩, ?_⟩
  rw [← hcount]
  exact ⟨start ++ above, epilogue { globals := g, ret := ret, main := name == "main" } ++ below,
    by simp only [List.append_assoc]⟩

end Functions

structure Separate (slots : List Slot) (lo hi : Nat) : Prop where
  apart : slots.Pairwise Slot.Apart
  inside : ∀ s ∈ slots, lo ≤ s.start ∧ s.stop ≤ hi

theorem Tiled.separate {slots : List Slot} {lo hi : Nat} (h : Tiled lo slots hi) : Separate slots lo hi :=
  ⟨h.apart, h.inside⟩

/--
No two variables of a compiled program share a byte, as long as no word wraps that their sizes and places are computed
with. Its globals lie one behind the other in the data space, with as many bytes as they were declared with, and end
where the operand of the first line says. In the frame of each function the parameters have the first slots; they, the
variables of the body and the operands of all `switch` statements lie apart from each other behind the header, inside of
the size that the frame instruction gives.
-/
theorem storage_apart {source text : String} (h : compile source = .ok text) :
    ∃ g code, survey (Cursor.ofSource source) = .ok g ∧ text = Code.render code
      ∧ code.head? = some (.op .space [.int g.size])
      ∧ ((∀ x ∈ globalVariables source, x.Unwrapped) →
        g.slots.map (·.owner) = (globalVariables source).map (·.owner)
          ∧ Separate g.slots Memory.dataStart.toNat Memory.heapStart.toNat
          ∧ Tiled Memory.dataStart.toNat g.slots (Memory.dataStart.toNat + g.size))
      ∧ ∀ name ret params body, .function name ret params body ∈ functions g.macros (Cursor.ofSource source) →
        ∃ c ls, Compiled g code name ret params body c ls
          ∧ ((TopLevel.function name ret params body).Unwrapped → ∃ slots, slots.map (·.owner) = body.owners
            ∧ (∀ s ∈ paramSlots 0 params ++ slots, s.Serves ls c)
            ∧ Separate (paramSlots 0 params ++ slots) Memory.frameHeader ls.size
            ∧ Memory.frameHeader + Memory.paramSlot * params.length ≤ ls.size) := by
  obtain ⟨g, hg, functions, hemit, rfl⟩ := compile_eq_ok_iff.mp h
  refine ⟨g, _, hg, rfl, rfl, ?_, ?_⟩
  · intro hwords
    obtain ⟨howners, htiled⟩ := tiled_of_survey hg hwords
    have hbelow := (survey_laid hg ((gathers_of_survey hg).unwrapped nofun hwords)).below
    refine ⟨howners, ⟨htiled.apart, ?_⟩, htiled⟩
    intro s hs
    obtain ⟨hlow, hhigh⟩ := htiled.inside s hs
    exact ⟨hlow, Nat.le_trans hhigh hbelow⟩
  · intro name ret params body hf
    obtain ⟨c, ls, hcompiled⟩ := exists_compiled hemit hf
    refine ⟨c, ls, hcompiled, fun hwords => ?_⟩
    obtain ⟨slots, hslots, hfills, hparams⟩ := hcompiled.fills hwords
    exact ⟨slots, hslots, hfills.serves, hfills.tiled.separate, hparams⟩

def nestedSource : String :=
  "char a[3]; int b = 5; int f(int x, char y) \x7b int z[2]; switch (x) \x7b case 1: int w; switch (y) \x7b " ++
    "default: return b; \x7d \x7d return z[1]; \x7d void main() \x7b f(1, 2); \x7d"

instance Owner.Unwrapped.decidable (o : Owner) : Decidable o.Unwrapped :=
  match o with
  | .var _ ty extents => inferInstanceAs (Decidable (ty.Unwrapped extents))
  | .param _ | .operand => inferInstanceAs (Decidable True)

instance TopLevel.Unwrapped.decidable (f : TopLevel) : Decidable f.Unwrapped :=
  match f with
  | .missing _ => inferInstanceAs (Decidable True)
  | .function _ _ _ body => inferInstanceAs (Decidable (_ ∧ ∀ o ∈ body.owners, o.Unwrapped))

theorem storage_apart_nestedSource :
    ∃ text g code, compile nestedSource = .ok text ∧ survey (Cursor.ofSource nestedSource) = .ok g
      ∧ text = Code.render code
      ∧ Separate g.slots Memory.dataStart.toNat Memory.heapStart.toNat
      ∧ ∀ name ret params body, .function name ret params body ∈ functions g.macros (Cursor.ofSource nestedSource) →
        ∃ c ls slots, Compiled g code name ret params body c ls
          ∧ Separate (paramSlots 0 params ++ slots) Memory.frameHeader ls.size := by
  obtain ⟨text, htext⟩ := Except.exists_eq_ok_of_isOk (x := compile nestedSource) (by decide +kernel)
  have hglobals : ∀ x ∈ globalVariables nestedSource, x.Unwrapped := by decide +kernel
  have hframes : ∀ g ∈ (survey (Cursor.ofSource nestedSource)).toOption,
      ∀ f ∈ functions g.macros (Cursor.ofSource nestedSource), f.Unwrapped := by decide +kernel
  obtain ⟨g, code, hg, hcode, -, hstored, hfunctions⟩ := storage_apart htext
  refine ⟨text, g, code, htext, hg, hcode, (hstored hglobals).2.1, ?_⟩
  intro name ret params body hf
  obtain ⟨c, ls, hcompiled, hslots⟩ := hfunctions name ret params body hf
  obtain ⟨slots, -, -, hseparate, -⟩ := hslots (hframes g (by simp [hg, Except.toOption]) _ hf)
  exact ⟨c, ls, slots, hcompiled, hseparate⟩

/--
Where a word wraps, variables have no room of their own: an array of `2 ^ 32 - 4` bytes leaves a frame that is smaller
than its header, and an array for a string of `2 ^ 16 - 1` bytes has no elements.
-/
theorem storage_wraps :
    compile "void main() \x7b char a[49981][21483][4]; int b; \x7d"
        = .ok "    SPACE 0\n    JMP main\nmain:\n    FUNC 3 0\n    EXIT\n"
      ∧ ({ name := "a", span := {}, pointer := 0, dims := [none] } : Declarator).extents .char
          (Init.text (List.replicate 0xFFFF 0x78)).shape = .ok [0] := by
  refine ⟨by decide +kernel, ?_⟩
  rw [Init.shape, List.length_replicate]
  rfl

end Source
end Handheld
