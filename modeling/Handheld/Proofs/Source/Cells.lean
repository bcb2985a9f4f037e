import Handheld.Proofs.Memory
import Handheld.Proofs.Source.Layout
import Handheld.Proofs.Source.Meaning

/-!
The store of a function body in memory: every variable for numbers has bytes of its own.
-/
namespace Handheld.Source

def Var.isNumber (v : Var) : Bool :=
  v.dims.isEmpty && v.ty.pointer == 0

def scopeOf (g : Globals) (ls : Locals) : Scope := fun x =>
  match ls.vars.lookup x with
  | some v => if v.isNumber then some ⟨.frame x, v.ty.base⟩ else none
  | none =>
    match g.vars.lookup x with
    | some v => if v.isNumber then some ⟨.global x, v.ty.base⟩ else none
    | none => none

def Cell.var? (g : Globals) (ls : Locals) : Cell → Option Var
  | .global x => (g.vars.lookup x).filter Var.isNumber
  | .frame x => (ls.vars.lookup x).filter Var.isNumber

def Var.handle (v : Var) : Handle where
  addr := UInt16.ofNat v.offset
  width := v.ty.width
  relative := v.onFrame

def storeOf (g : Globals) (ls : Locals) (base : UInt16) (memory : Memory) : Store := fun c =>
  match c.var? g ls with
  | some v => memory.load v.handle base
  | none => 0

structure Placed (g : Globals) (ls : Locals) (base : UInt16) : Prop where
  globals : g.Laid
  locals : ls.Laid
  unwrapped : ls.Unwrapped
  above : Memory.dataStart.toNat + g.size ≤ base.toNat
  below : base.toNat + ls.size ≤ Memory.heapStart.toNat

def Var.address (v : Var) (base : UInt16) : Nat :=
  if v.onFrame then base.toNat + v.offset else v.offset

theorem Var.ty_size_of_isNumber {v : Var} (h : v.isNumber) : v.size = v.ty.width.bytes := by
  simp only [Var.isNumber, List.isEmpty_iff, Bool.and_eq_true] at h
  rw [Var.size_of_scalar h.1, Ty.size]

theorem Var.ty_width_of_isNumber {v : Var} (h : v.isNumber) : v.ty.width = v.ty.base.width := by
  simp only [Var.isNumber, beq_iff_eq, Bool.and_eq_true] at h
  simp [Ty.width, Ty.isPointer, h.2]

section Placed

variable {g : Globals} {ls : Locals} {base : UInt16} {memory : Memory} {c c' : Cell} {v w : Var}

theorem Placed.inData (h : Placed g ls base) {x : String} (hv : g.vars.lookup x = some v) :
    v.address base = v.offset ∧ (v.handle.resolve base).toNat = v.offset
      ∧ Memory.dataStart.toNat ≤ v.offset ∧ v.offset + v.size ≤ Memory.dataStart.toNat + g.size := by
  have hheap := Memory.toNat_heapStart
  have hbelow := h.globals.below
  have hkind := h.globals.packed.kind x v hv
  obtain ⟨hlo, hhi⟩ := h.globals.packed.inside x v hv
  have hoffset : v.offset < 0x10000 := by omega
  refine ⟨by simp [Var.address, hkind], ?_, hlo, hhi⟩
  simp [Handle.resolve, Var.handle, hkind, Nat.mod_eq_of_lt hoffset]

theorem Placed.inFrame (h : Placed g ls base) {x : String} (hv : ls.vars.lookup x = some v) :
    v.address base = base.toNat + v.offset ∧ (v.handle.resolve base).toNat = base.toNat + v.offset
      ∧ Memory.frameHeader ≤ v.offset ∧ v.offset + v.size ≤ ls.size := by
  have hheap := Memory.toNat_heapStart
  have hbelow := h.below
  have hkind := h.locals.packed.kind x v hv
  obtain ⟨hlo, hhi⟩ := h.locals.packed.inside x v hv
  have hoffset : v.offset < 0x10000 := by omega
  have hsum : v.offset + base.toNat < 0x10000 := by omega
  refine ⟨by simp [Var.address, hkind], ?_, hlo, hhi⟩
  simp only [Handle.resolve, Var.handle, hkind, if_true]
  rw [UInt16.toNat_add, UInt16.toNat_ofNat_of_lt' hoffset, Nat.mod_eq_of_lt hsum, Nat.add_comm]

theorem Placed.global (h : Placed g ls base) {x : String} (hv : (Cell.global x).var? g ls = some v) :
    g.vars.lookup x = some v ∧ v.isNumber ∧ v.address base = v.offset
      ∧ (v.handle.resolve base).toNat = v.offset
      ∧ Memory.dataStart.toNat ≤ v.offset
      ∧ v.offset + v.ty.width.bytes ≤ Memory.dataStart.toNat + g.size := by
  obtain ⟨hv, hnumber⟩ := Option.filter_eq_some_iff.mp hv
  rw [← Var.ty_size_of_isNumber hnumber]
  exact ⟨hv, hnumber, h.inData hv⟩

theorem Placed.frame (h : Placed g ls base) {x : String} (hv : (Cell.frame x).var? g ls = some v) :
    ls.vars.lookup x = some v ∧ v.isNumber ∧ v.address base = base.toNat + v.offset
      ∧ (v.handle.resolve base).toNat = base.toNat + v.offset
      ∧ Memory.frameHeader ≤ v.offset ∧ v.offset + v.ty.width.bytes ≤ ls.size := by
  obtain ⟨hv, hnumber⟩ := Option.filter_eq_some_iff.mp hv
  rw [← Var.ty_size_of_isNumber hnumber]
  exact ⟨hv, hnumber, h.inFrame hv⟩

structure Var.Within (v : Var) (g : Globals) (ls : Locals) (base : UInt16) : Prop where
  number : v.isNumber
  resolve : (v.handle.resolve base).toNat = v.address base
  region : Memory.dataStart.toNat ≤ v.address base
        ∧ v.address base + v.ty.width.bytes ≤ Memory.dataStart.toNat + g.size
      ∨ base.toNat + Memory.frameHeader ≤ v.address base
        ∧ v.address base + v.ty.width.bytes ≤ base.toNat + ls.size

theorem Placed.within (h : Placed g ls base) (hv : c.var? g ls = some v) : v.Within g ls base := by
  cases c with
  | global x =>
    obtain ⟨-, hnumber, haddress, hresolve, hregion⟩ := h.global hv
    rw [← haddress] at hresolve hregion
    exact ⟨hnumber, hresolve, .inl hregion⟩
  | frame x =>
    obtain ⟨-, hnumber, haddress, hresolve, hlo, hhi⟩ := h.frame hv
    rw [← haddress] at hresolve
    exact ⟨hnumber, hresolve, .inr (by omega)⟩

theorem Var.Within.room (hv : v.Within g ls base) (h : Placed g ls base) :
    v.address base + v.ty.width.bytes ≤ 0x10000 := by
  have hheap := Memory.toNat_heapStart
  have habove := h.globals.below
  have hbelow := h.below
  rcases hv.region with hregion | hregion <;> omega

theorem Placed.apart (h : Placed g ls base) (hv : c.var? g ls = some v) (hw : c'.var? g ls = some w) (hne : c ≠ c')
    : v.address base + v.ty.width.bytes ≤ w.address base
        ∨ w.address base + w.ty.width.bytes ≤ v.address base := by
  have habove := h.above
  cases c with
  | global x =>
    obtain ⟨hx, hnumber, haddress, -, hlo, hhi⟩ := h.global hv
    cases c' with
    | global y =>
      obtain ⟨hy, hnumber', haddress', -, -, -⟩ := h.global hw
      have hapart := h.globals.packed.apart x y v w hx hy (by grind)
      rw [Var.ty_size_of_isNumber hnumber, Var.ty_size_of_isNumber hnumber'] at hapart
      rwa [haddress, haddress']
    | frame y =>
      obtain ⟨-, -, haddress', -, hlo', hhi'⟩ := h.frame hw
      omega
  | frame x =>
    obtain ⟨hx, hnumber, haddress, -, hlo, hhi⟩ := h.frame hv
    cases c' with
    | global y =>
      obtain ⟨-, -, haddress', -, hlo', hhi'⟩ := h.global hw
      omega
    | frame y =>
      obtain ⟨hy, hnumber', haddress', -, -, -⟩ := h.frame hw
      have hapart := h.locals.packed.apart x y v w hx hy (by grind)
      rw [Var.ty_size_of_isNumber hnumber, Var.ty_size_of_isNumber hnumber'] at hapart
      omega

theorem Placed.storeOf_write (h : Placed g ls base) (hv : c.var? g ls = some v) (n : Int32) :
    storeOf g ls base (memory.write (v.handle.resolve base) v.ty.width n)
      =
    Function.update (storeOf g ls base memory) c (v.ty.width.normalize n) := by
  have hwithin := h.within hv
  have hroom := hwithin.room h
  rw [← hwithin.resolve] at hroom
  funext c'
  by_cases hc : c' = c
  · subst hc
    rw [Function.update_self, storeOf, hv]
    apply Memory.read_write
  · rw [Function.update_of_ne hc, storeOf, storeOf]
    cases hw : c'.var? g ls with
    | none => rfl
    | some w =>
      have hwithin' := h.within hw
      have hroom' := hwithin'.room h
      have hapart := h.apart hw hv hc
      rw [← hwithin'.resolve] at hroom' hapart
      rw [← hwithin.resolve] at hapart
      exact Memory.read_write_of_disjoint hroom hroom' hapart

def Untouched (g : Globals) (ls : Locals) (base : UInt16) (memory memory' : Memory) : Prop :=
  ∀ a : UInt16,
    ¬(Memory.dataStart.toNat ≤ a.toNat ∧ a.toNat < Memory.dataStart.toNat + g.size) →
      ¬(base.toNat + Memory.frameHeader ≤ a.toNat ∧ a.toNat < base.toNat + ls.size) →
        memory'.byte a = memory.byte a

theorem Untouched.refl (memory : Memory) : Untouched g ls base memory memory :=
  fun _ _ _ => rfl

theorem Untouched.trans {memory1 memory2 : Memory} (h1 : Untouched g ls base memory memory1)
    (h2 : Untouched g ls base memory1 memory2)
    : Untouched g ls base memory memory2 :=
  fun a hglobal hframe => (h2 a hglobal hframe).trans (h1 a hglobal hframe)

theorem Placed.untouched_write (h : Placed g ls base) (hv : c.var? g ls = some v) (n : Int32) :
    Untouched g ls base memory (memory.write (v.handle.resolve base) v.ty.width n) := by
  intro a hglobal hframe
  have hwithin := h.within hv
  have hroom := hwithin.room h
  have hregion := hwithin.region
  rw [← hwithin.resolve] at hroom hregion
  exact Memory.byte_writeLE_of_not_mem hroom (by omega)

end Placed

section Scope

variable {g : Globals} {ls ls' : Locals} {x : String} {n : Number} {v : Var}

theorem cell_var?_of_scopeOf (hn : scopeOf g ls x = some n)
    (hv : (ls.vars.lookup x).or (g.vars.lookup x) = some v) (hgrows : ls.Grows ls')
    : n.cell.var? g ls' = some v ∧ n.base = v.ty.base := by
  unfold scopeOf at hn
  cases hframe : ls.vars.lookup x with
  | some w =>
    simp only [hframe, Option.some_or, Option.some.injEq, Option.ite_none_right_eq_some] at hn hv
    obtain ⟨hnumber, rfl⟩ := hn
    subst hv
    simp [Cell.var?, hgrows.lookup hframe, hnumber]
  | none =>
    simp only [hframe, Option.none_or] at hn hv
    simp only [hv, Option.ite_none_right_eq_some, Option.some.injEq] at hn
    obtain ⟨hnumber, rfl⟩ := hn
    simp [Cell.var?, hv, hnumber]

theorem Number.fit_eq_normalize (hnumber : v.isNumber) (hbase : n.base = v.ty.base) (k : Int32) :
    n.fit k = v.ty.width.normalize k := by
  rw [Number.fit, Width.normalize_eq_fit, hbase, Var.ty_width_of_isNumber hnumber]

end Scope

end Handheld.Source
