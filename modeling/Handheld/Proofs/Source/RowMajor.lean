import Handheld.Proofs.Source.Cells
import Mathlib.Data.List.Forall2
import Mathlib.Tactic.Ring

/-!
The elements of an array, row by row: there is one for each choice of subscripts within the extents, and no byte is
shared.
-/
namespace Handheld.Source

def volume : List Nat → Nat
  | [] => 1
  | d :: ds => d * volume ds

def rowMajor (dims : List Nat) (is : List Int) : Int :=
  (dims.zip is).foldl (fun (n : Int) (p : Nat × Int) => n * p.1 + p.2) 0

def InRange (dims : List Nat) (is : List Int) : Prop :=
  List.Forall₂ (fun (d : Nat) (i : Int) => 0 ≤ i ∧ i < d) dims is

def Var.element (v : Var) (base : UInt16) (is : List Int) : UInt16 :=
  UInt16.ofInt (v.address base + rowMajor v.dims is * v.ty.size)

section Digits

variable {d : Nat} {ds dims : List Nat} {i : Int} {is js : List Int}

theorem foldl_mul_eq (ds : List Nat) (n : Nat) : ds.foldl (· * ·) n = n * volume ds := by
  induction ds generalizing n with
  | nil => simp [volume]
  | cons d ds ih => rw [List.foldl_cons, ih, volume, Nat.mul_assoc]

theorem Ty.arraySize_eq (ty : Ty) (dims : List Nat) : ty.arraySize dims = volume dims * ty.size := by
  rw [Ty.arraySize, foldl_mul_eq, Nat.one_mul, Nat.mul_comm]

theorem Var.stride_eq (v : Var) (n : Nat) : v.stride n = volume (v.dims.drop (n + 1)) * v.ty.size % 0x100000000 := by
  rw [Var.stride, foldl_mul_eq, Nat.one_mul]

theorem foldl_rowMajor (h : is.length = dims.length) (n : Int) :
    (dims.zip is).foldl (fun (n : Int) (p : Nat × Int) => n * p.1 + p.2) n = n * volume dims + rowMajor dims is := by
  induction dims generalizing is n with
  | nil => simp [rowMajor, volume]
  | cons d ds ih =>
    cases is with
    | nil => cases h
    | cons i is =>
      have hlen : is.length = ds.length := Nat.succ.inj h
      rw [rowMajor, List.zip_cons_cons, List.foldl_cons, List.foldl_cons, ih hlen, ih hlen, volume]
      push_cast
      ring

theorem rowMajor_cons (h : is.length = ds.length) : rowMajor (d :: ds) (i :: is) = i * volume ds + rowMajor ds is := by
  rw [rowMajor, List.zip_cons_cons, List.foldl_cons, foldl_rowMajor h, zero_mul, zero_add]

theorem mul_add_le_of_lt {a b n : Int} (h : a < b) (hn : 0 ≤ n) : a * n + n ≤ b * n :=
  calc a * n + n
      = (a + 1) * n := by rw [Int.add_mul, Int.one_mul]
    _ ≤ b * n := Int.mul_le_mul_of_nonneg_right h hn

theorem InRange.bounds (h : InRange dims is) : 0 ≤ rowMajor dims is ∧ rowMajor dims is < volume dims := by
  induction h with
  | nil => exact ⟨Int.le_refl 0, Int.one_pos⟩
  | @cons d i ds is hi hrest ih =>
    rw [rowMajor_cons hrest.length_eq.symm, volume]
    obtain ⟨hlow, hhigh⟩ := hi
    have hrow : i * volume ds + volume ds ≤ d * volume ds := mul_add_le_of_lt hhigh (by omega)
    have hpos : 0 ≤ i * volume ds := Int.mul_nonneg hlow (by omega)
    push_cast
    omega

theorem eq_of_row_eq {i j r s n : Int} (hr : 0 ≤ r ∧ r < n) (hs : 0 ≤ s ∧ s < n) (h : i * n + r = j * n + s) :
    i = j ∧ r = s := by
  have hi : (i * n + r) / n = i := by
    rw [Int.add_comm, Int.add_mul_ediv_right _ _ (by omega), Int.ediv_eq_zero_of_lt hr.1 hr.2, Int.zero_add]
  have hj : (j * n + s) / n = j := by
    rw [Int.add_comm, Int.add_mul_ediv_right _ _ (by omega), Int.ediv_eq_zero_of_lt hs.1 hs.2, Int.zero_add]
  have heq : i = j := by rw [← hi, h, hj]
  subst heq
  exact ⟨rfl, by omega⟩

theorem InRange.eq_of_rowMajor_eq (his : InRange dims is) (hjs : InRange dims js)
    (h : rowMajor dims is = rowMajor dims js)
    : is = js := by
  induction his generalizing js with
  | nil =>
    cases hjs
    rfl
  | @cons d i ds is hi hrest ih =>
    cases hjs with
    | @cons _ j _ js hj hrest' =>
      rw [rowMajor_cons hrest.length_eq.symm, rowMajor_cons hrest'.length_eq.symm] at h
      obtain ⟨rfl, htail⟩ := eq_of_row_eq (InRange.bounds hrest) (InRange.bounds hrest') h
      rw [ih hrest' htail]

end Digits

section Elements

variable {v : Var} {base : UInt16} {is js : List Int}

theorem toNat_ofInt (x : Int) : ((UInt16.ofInt x).toNat : Int) = x % 0x10000 := by
  have hlow := Int.emod_nonneg x (by decide : (0x10000 : Int) ≠ 0)
  have hhigh := Int.emod_lt_of_pos x (by decide : (0 : Int) < 0x10000)
  rw [UInt16.ofInt, UInt16.toNat_ofNat', Nat.mod_eq_of_lt (by omega)]
  omega

theorem Var.element_within (h : InRange v.dims is) (hroom : v.address base + v.ty.arraySize v.dims ≤ 0x10000) :
    ((v.element base is).toNat : Int) = v.address base + rowMajor v.dims is * v.ty.size
      ∧ v.address base ≤ (v.element base is).toNat
      ∧ (v.element base is).toNat + v.ty.size ≤ v.address base + v.ty.arraySize v.dims := by
  obtain ⟨hlow, hhigh⟩ := h.bounds
  have hsize := v.ty.size_pos
  have hpos : 0 ≤ rowMajor v.dims is * v.ty.size := Int.mul_nonneg hlow (by omega)
  have hend : rowMajor v.dims is * v.ty.size + v.ty.size ≤ v.ty.arraySize v.dims := by
    rw [Ty.arraySize_eq]
    push_cast
    exact mul_add_le_of_lt hhigh (by omega)
  have helement : ((v.element base is).toNat : Int) = v.address base + rowMajor v.dims is * v.ty.size := by
    rw [Var.element, toNat_ofInt]
    omega
  omega

theorem Var.element_apart (his : InRange v.dims is) (hjs : InRange v.dims js) (hne : is ≠ js)
    (hroom : v.address base + v.ty.arraySize v.dims ≤ 0x10000)
    : (v.element base is).toNat + v.ty.size ≤ (v.element base js).toNat
        ∨ (v.element base js).toNat + v.ty.size ≤ (v.element base is).toNat := by
  obtain ⟨hi, -⟩ := Var.element_within his hroom
  obtain ⟨hj, -⟩ := Var.element_within hjs hroom
  have hrows : rowMajor v.dims is ≠ rowMajor v.dims js := fun h => hne (his.eq_of_rowMajor_eq hjs h)
  rcases Int.lt_or_gt_of_ne hrows with hlt | hlt
  · have hnext := mul_add_le_of_lt hlt (Int.natCast_nonneg v.ty.size)
    omega
  · have hnext := mul_add_le_of_lt hlt (Int.natCast_nonneg v.ty.size)
    omega

end Elements

end Handheld.Source
