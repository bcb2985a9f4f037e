import Handheld.Proofs.Source.Declarations
import Handheld.Proofs.Source.Locals

/-!
Variables lie in reach of operands. As long as no word wraps, they lie apart from each other: globals from the start of
the data space on, and locals in the frame of a function, behind its header.
-/
namespace Handheld

namespace Source

variable {hi' : Nat} {x name : String} {v : Var} {g g' : Globals} {ty : Ty} {span : Span}

def Var.Unwrapped (v : Var) : Prop :=
  v.ty.arraySize v.dims + 0xFFFF < 0x100000000

instance Var.Unwrapped.decidable (v : Var) : Decidable v.Unwrapped :=
  inferInstanceAs (Decidable (_ < _))

theorem Var.Unwrapped.count_eq (h : v.Unwrapped) : v.count = v.dims.foldl (· * ·) 1 := by
  have hle := Nat.le_mul_of_pos_left (v.dims.foldl (· * ·) 1) v.ty.size_pos
  unfold Var.Unwrapped Ty.arraySize at h
  exact Nat.mod_eq_of_lt (by omega)

theorem Var.Unwrapped.size_eq (h : v.Unwrapped) : v.size = v.ty.arraySize v.dims := by
  rw [Var.size, h.count_eq, ← Ty.arraySize]
  unfold Var.Unwrapped at h
  exact Nat.mod_eq_of_lt (by omega)

theorem Var.size_of_scalar (h : v.dims = []) : v.size = v.ty.size := by
  have hle := v.ty.size_le
  rw [Var.size, Var.count, h, List.foldl_nil]
  omega

def Globals.Unwrapped (g : Globals) : Prop :=
  ∀ p ∈ g.vars, p.2.Unwrapped

instance Globals.Unwrapped.decidable (g : Globals) : Decidable g.Unwrapped :=
  inferInstanceAs (Decidable (∀ p ∈ g.vars, p.2.Unwrapped))

structure Locals.Unwrapped (ls : Locals) : Prop where
  vars : ∀ p ∈ ls.vars, p.2.Unwrapped
  params : Memory.frameHeader + Memory.paramSlot * ls.params ≤ 0xFFFF

section Near

/-- What operands can say of the globals, also where words wrap. -/
structure Globals.Near (g : Globals) : Prop where
  vars : ∀ x v, g.vars.lookup x = some v → v.offset ≤ 0xFFFF
  strings : ∀ p ∈ g.strings, p.1 ≤ 0xFFFF

theorem Globals.Near.declare (h : g.Near) {dims : List Nat} (hr : g.declare name ty dims span = .ok (v, g'))
    : g'.Near := by
  obtain ⟨-, -, -, hv, rfl⟩ := declare_eq_ok_iff.mp hr
  refine ⟨fun x w hw => ?_, h.strings⟩
  rw [List.lookup_cons] at hw
  split at hw
  next =>
    cases hw
    rw [hv]
    dsimp only
    omega
  next => exact h.vars x w hw

theorem Globals.Near.setContents (h : g.Near) {init : Init} (hr : g.setContents v init span = .ok g') : g'.Near := by
  obtain ⟨c, -, rfl⟩ := setContents_eq_ok_iff.mp hr
  refine ⟨h.vars, fun p hp => ?_⟩
  rcases List.mem_append.mp hp with hp | hp
  · exact h.strings p hp
  · obtain ⟨q, -, rfl⟩ := List.mem_map.mp hp
    dsimp only
    omega

theorem Globals.Near.stable : Globals.Stable (fun _ => True) Globals.Near where
  macros _ h := ⟨h.vars, h.strings⟩
  function _ h hadd := by
    obtain ⟨_, rfl, -⟩ := addFunction_eq_ok hadd
    exact ⟨h.vars, h.strings⟩
  var h hdeclare := h.declare hdeclare
  contents h hdeclare hset := (h.declare hdeclare).setContents hset

theorem survey_near {c : Cursor} (h : survey c = .ok g) : g.Near :=
  stable_of_survey Globals.Near.stable ⟨by rintro x v ⟨⟩, by simp⟩ (fun _ _ _ _ => trivial) h

structure Locals.Near (ls : Locals) : Prop where
  vars : ∀ x v, ls.vars.lookup x = some v → v.offset ≤ 0xFFFF
  size : ls.size ≤ 0xFFFF

variable {ls ls' : Locals}

theorem Locals.near_insert (h : ls.Near) (hv : v.offset ≤ 0xFFFF) {size : Nat} (hsize : size ≤ 0xFFFF) (params : Nat) :
    Locals.Near { vars := Table.insert ls.vars name v, size, params } := by
  refine ⟨fun x w hw => ?_, hsize⟩
  rw [Table.lookup_insert] at hw
  split at hw
  next => rwa [← Option.some.inj hw]
  next => exact h.vars x w hw

theorem near_addParams {params : List Param} (h : ls.Near) (hparams : addParams params ls = .ok ls') : ls'.Near := by
  induction params generalizing ls with
  | nil =>
    cases hparams
    exact h
  | cons p ps ih =>
    obtain ⟨name, -, ls1, hparam, hrest⟩ := addParams_cons_eq_ok_iff.mp hparams
    obtain ⟨-, rfl⟩ := Locals.param_eq_ok hparam
    exact ih (Locals.near_insert h (by dsimp only; omega) (by omega) _) hrest

theorem Locals.Grows.near (hgrows : ls.Grows ls') (h : ls.Near) : ls'.Near := by
  induction hgrows with
  | refl => exact h
  | claim hclaim _ ih =>
    obtain ⟨hstop, heq⟩ := claim_eq_ok_iff.mp hclaim
    cases heq
    exact ih ⟨h.vars, hstop⟩
  | declare hdeclare _ ih =>
    obtain ⟨v, rfl, -, hstop, heq⟩ := declare_eq_ok_iff.mp hdeclare
    cases heq
    exact ih (Locals.near_insert h h.size hstop _)

theorem Locals.Near.empty : Locals.Near {} :=
  ⟨by rintro x v ⟨⟩, by decide⟩

end Near

structure Packed (vars : List (String × Var)) (onFrame : Bool) (lo hi : Nat) : Prop where
  kind : ∀ x v, vars.lookup x = some v → v.onFrame = onFrame
  inside : ∀ x v, vars.lookup x = some v → lo ≤ v.offset ∧ v.offset + v.size ≤ hi
  apart : ∀ x y v w, vars.lookup x = some v → vars.lookup y = some w → x ≠ y →
    v.offset + v.size ≤ w.offset ∨ w.offset + w.size ≤ v.offset

namespace Packed

variable {vars : List (String × Var)} {onFrame : Bool} {lo hi : Nat}

theorem nil : Packed [] onFrame lo hi :=
  ⟨by rintro x v ⟨⟩, by rintro x v ⟨⟩, by rintro x y v w ⟨⟩⟩

theorem mono (h : Packed vars onFrame lo hi) (hle : hi ≤ hi') :
    Packed vars onFrame lo hi' where
  kind := h.kind
  inside x v hv := ⟨(h.inside x v hv).1, Nat.le_trans (h.inside x v hv).2 hle⟩
  apart := h.apart

theorem insert (h : Packed vars onFrame lo hi) (hkind : v.onFrame = onFrame) (hlo : lo ≤ v.offset) (hhi : hi ≤ v.offset)
    (hsize : v.offset + v.size ≤ hi')
    : Packed (Table.insert vars x v) onFrame lo hi' where
  kind y w hw := by
    rw [Table.lookup_insert] at hw
    split at hw
    next => rwa [← Option.some.inj hw]
    next => exact h.kind y w hw
  inside y w hw := by
    rw [Table.lookup_insert] at hw
    split at hw
    next =>
      rw [← Option.some.inj hw]
      exact ⟨hlo, hsize⟩
    next =>
      have := h.inside y w hw
      omega
  apart y z u w hu hw hne := by
    rw [Table.lookup_insert] at hu hw
    split at hu
    next =>
      split at hw
      next => grind
      next =>
        cases Option.some.inj hu
        have := h.inside z w hw
        omega
    next =>
      split at hw
      next =>
        cases Option.some.inj hw
        have := h.inside y u hu
        omega
      next => exact h.apart y z u w hu hw hne

end Packed

structure Globals.Laid (g : Globals) : Prop where
  packed : Packed g.vars false Memory.dataStart.toNat (Memory.dataStart.toNat + g.size)
  below : Memory.dataStart.toNat + g.size ≤ Memory.heapStart.toNat

theorem Globals.Laid.empty : Globals.Laid {} :=
  ⟨.nil, by decide⟩

theorem Globals.place_of_declare {dims : List Nat} (hr : g.declare name ty dims span = .ok (v, g'))
    (hbelow : Memory.dataStart.toNat + g.size ≤ Memory.heapStart.toNat) (hwords : v.Unwrapped)
    : v.offset = Memory.dataStart.toNat + g.size ∧ v.offset + v.size ≤ Memory.heapStart.toNat
        ∧ g'.size = g.size + v.size := by
  obtain ⟨-, -, hfits, hv, rfl⟩ := declare_eq_ok_iff.mp hr
  have hheap : Memory.heapStart.toNat = 0xE000 := rfl
  have hoffset : v.offset = Memory.dataStart.toNat + g.size := by
    rw [hv]
    dsimp only
    omega
  have hsize := hwords.size_eq
  unfold Var.Unwrapped at hwords
  dsimp only
  omega

theorem Globals.Laid.declare (h : g.Laid) {dims : List Nat} (hr : g.declare name ty dims span = .ok (v, g'))
    (hwords : v.Unwrapped)
    : g'.Laid := by
  obtain ⟨hoffset, hfits, hsize⟩ := place_of_declare hr h.below hwords
  obtain ⟨hnew, -, -, hv, rfl⟩ := declare_eq_ok_iff.mp hr
  dsimp only at hsize
  constructor
  · dsimp only
    rw [← Table.insert_of_new (Table.contains_eq_false_iff.mpr hnew)]
    exact h.packed.insert (by rw [hv]) (by omega) (by omega) (by omega)
  · dsimp only
    omega

theorem Globals.unwrapped_of_declare {dims : List Nat} (h : g.declare name ty dims span = .ok (v, g'))
    (hwords : g'.Unwrapped) : g.Unwrapped ∧ v.Unwrapped := by
  obtain ⟨-, -, -, -, rfl⟩ := declare_eq_ok_iff.mp h
  obtain ⟨hv, hg⟩ := List.forall_mem_cons.mp hwords
  exact ⟨hg, hv⟩

section Locals

structure Locals.Laid (ls : Locals) : Prop where
  packed : Packed ls.vars true Memory.frameHeader ls.size
  header : Memory.frameHeader ≤ ls.size
  small : ls.size ≤ 0xFFFF

variable {ls ls1 ls' : Locals}

theorem Locals.Laid.empty : Locals.Laid {} :=
  ⟨.nil, Nat.le_refl _, by decide⟩

theorem params_addParams {params : List Param} (h : addParams params ls = .ok ls') :
    ls'.params = ls.params + params.length := by
  induction params generalizing ls with
  | nil =>
    cases h
    rfl
  | cons p ps ih =>
    obtain ⟨name, -, ls1, hparam, hrest⟩ := addParams_cons_eq_ok_iff.mp h
    obtain ⟨-, rfl⟩ := Locals.param_eq_ok hparam
    rw [ih hrest, List.length_cons, Nat.add_assoc, Nat.add_comm 1]

theorem Locals.laid_param (h : ls.Laid) (hsize : ls.size = Memory.frameHeader + Memory.paramSlot * ls.params)
    (hparam : ls.param name ty span = .ok ls')
    (hroom : Memory.frameHeader + Memory.paramSlot * (ls.params + 1) ≤ 0xFFFF)
    : ls'.Laid ∧ ls'.size = Memory.frameHeader + Memory.paramSlot * ls'.params := by
  obtain ⟨-, rfl⟩ := Locals.param_eq_ok hparam
  have hty := ty.size_le
  have hheader := h.header
  simp only [Memory.paramSlot] at hroom hsize
  have hoffset : (Memory.frameHeader + 4 * ls.params) % 0x10000 = ls.size := by omega
  simp only [Memory.paramSlot, hoffset]
  refine ⟨⟨h.packed.insert rfl hheader (Nat.le_refl _) ?_, ?_, ?_⟩, ?_⟩
  · rw [Var.size_of_scalar rfl]
    dsimp only
    omega
  · dsimp only
    omega
  · dsimp only
    omega
  · omega

theorem laid_addParams {params : List Param} (h : ls.Laid)
    (hsize : ls.size = Memory.frameHeader + Memory.paramSlot * ls.params) (hparams : addParams params ls = .ok ls')
    (hroom : Memory.frameHeader + Memory.paramSlot * ls'.params ≤ 0xFFFF)
    : ls'.Laid ∧ ls'.size = Memory.frameHeader + Memory.paramSlot * ls'.params := by
  induction params generalizing ls with
  | nil =>
    cases hparams
    exact ⟨h, hsize⟩
  | cons p ps ih =>
    have hcount := params_addParams hparams
    obtain ⟨name, -, ls1, hparam, hrest⟩ := addParams_cons_eq_ok_iff.mp hparams
    obtain ⟨h1, hsize1⟩ := Locals.laid_param h hsize hparam <| by
      rw [hcount, List.length_cons] at hroom
      simp only [Memory.paramSlot] at hroom ⊢
      omega
    exact ih h1 hsize1 hrest

theorem Locals.Grows.unwrapped (h : ls.Grows ls') (hwords : ls'.Unwrapped) : ls.Unwrapped := by
  induction h with
  | refl => exact hwords
  | claim hclaim _ ih =>
    obtain ⟨-, heq⟩ := claim_eq_ok_iff.mp hclaim
    cases heq
    exact ⟨(ih hwords).vars, (ih hwords).params⟩
  | declare hdeclare _ ih =>
    obtain ⟨v, -, hnew, -, heq⟩ := declare_eq_ok_iff.mp hdeclare
    cases heq
    have hvars := (ih hwords).vars
    rw [Table.insert_of_new hnew] at hvars
    exact ⟨(List.forall_mem_cons.mp hvars).2, (ih hwords).params⟩

theorem Locals.Laid.claim (h : ls.Laid) {temp : Nat} (hclaim : ls.claim 4 span = .ok (temp, ls')) :
    temp = ls.size ∧ ls' = { ls with size := ls.size + 4 } ∧ ls'.Laid := by
  obtain ⟨hstop, heq⟩ := claim_eq_ok_iff.mp hclaim
  have hsmall := h.small
  rw [Nat.mod_eq_of_lt (by omega)] at hstop heq
  cases heq
  exact ⟨rfl, rfl, h.packed.mono (Nat.le_add_right _ _), Nat.le_trans h.header (Nat.le_add_right _ _), hstop⟩

theorem Locals.Laid.declare (h : ls.Laid) {dims : List Nat} (hdeclare : ls.declare name ty dims span = .ok (v, ls'))
    (hwords : v.Unwrapped)
    : v.offset = ls.size ∧ ls' = { ls with vars := Table.insert ls.vars name v, size := ls.size + v.size }
        ∧ ls'.Laid := by
  obtain ⟨w, hw, -, hstop, heq⟩ := declare_eq_ok_iff.mp hdeclare
  cases heq
  have hsmall := h.small
  have hsize := hwords.size_eq
  have hoffset : v.offset = ls.size := by rw [hw]
  unfold Var.Unwrapped at hwords
  rw [Nat.mod_eq_of_lt (by omega)] at hstop ⊢
  refine ⟨hoffset, rfl, h.packed.insert (by rw [hw]) ?_ ?_ ?_, ?_, hstop⟩
  · exact hoffset ▸ h.header
  · exact Nat.le_of_eq hoffset.symm
  · rw [hoffset]
  · exact Nat.le_trans h.header (Nat.le_add_right _ _)

theorem Locals.unwrapped_of_declare {dims : List Nat} (h : ls.declare name ty dims span = .ok (v, ls'))
    (hwords : ls'.Unwrapped) : v.Unwrapped := by
  obtain ⟨w, -, hnew, -, heq⟩ := declare_eq_ok_iff.mp h
  cases heq
  have hvars := hwords.vars
  rw [Table.insert_of_new hnew] at hvars
  exact (List.forall_mem_cons.mp hvars).1

/-- What one step of growth keeps while no word wraps, all of growth keeps. -/
theorem Locals.Grows.laid (hgrows : ls.Grows ls') (h : ls.Laid) (hwords : ls'.Unwrapped) :
    ls'.Laid ∧ ls.size ≤ ls'.size
      ∧ ∀ x v, ls'.vars.lookup x = some v → ls.vars.lookup x = some v ∨ ls.size ≤ v.offset := by
  induction hgrows with
  | refl => exact ⟨h, Nat.le_refl _, fun _ _ hv => .inl hv⟩
  | claim hclaim _ ih =>
    obtain ⟨-, rfl, h1⟩ := h.claim hclaim
    obtain ⟨hlaid, hsize, hlookup⟩ := ih h1 hwords
    dsimp only at hsize hlookup
    exact ⟨hlaid, by omega, fun x v hv => (hlookup x v hv).imp id (by omega)⟩
  | declare hdeclare hrest ih =>
    obtain ⟨hoffset, rfl, h1⟩ := h.declare hdeclare (unwrapped_of_declare hdeclare (hrest.unwrapped hwords))
    obtain ⟨hlaid, hsize, hlookup⟩ := ih h1 hwords
    dsimp only at hsize hlookup
    refine ⟨hlaid, by omega, fun x v hv => ?_⟩
    rcases hlookup x v hv with hv | hle
    · rw [Table.lookup_insert] at hv
      split at hv
      next =>
        cases Option.some.inj hv
        exact .inr (Nat.le_of_eq hoffset.symm)
      next => exact .inl hv
    · exact .inr (by omega)

theorem Locals.Grows.lookup (h : ls.Grows ls') (hv : ls.vars.lookup x = some v) : ls'.vars.lookup x = some v := by
  induction h with
  | refl => exact hv
  | claim hclaim _ ih =>
    obtain ⟨-, heq⟩ := claim_eq_ok_iff.mp hclaim
    cases heq
    exact ih hv
  | @declare _ _ _ name _ _ _ _ hdeclare _ ih =>
    obtain ⟨w, -, hnew, -, heq⟩ := declare_eq_ok_iff.mp hdeclare
    cases heq
    apply ih
    have hne : x ≠ name := by
      rintro rfl
      simp [Table.contains, hv] at hnew
    rw [Table.lookup_insert, if_neg hne, hv]

def Locals.Built (ls : Locals) : Prop :=
  ∃ params ls0, addParams params {} = .ok ls0 ∧ ls0.Grows ls

theorem Locals.Built.grows (h : ls.Built) (hgrows : ls.Grows ls') : ls'.Built := by
  obtain ⟨params, ls0, hparams, hbefore⟩ := h
  exact ⟨params, ls0, hparams, hbefore.trans hgrows⟩

theorem Locals.Built.near (h : ls.Built) : ls.Near := by
  obtain ⟨params, ls0, hparams, hgrows⟩ := h
  exact hgrows.near (near_addParams .empty hparams)

theorem Locals.Built.laid (h : ls.Built) (hwords : ls.Unwrapped) : ls.Laid := by
  obtain ⟨params, ls0, hparams, hgrows⟩ := h
  exact (hgrows.laid (laid_addParams .empty rfl hparams (hgrows.unwrapped hwords).params).1 hwords).1

end Locals

end Source
end Handheld
