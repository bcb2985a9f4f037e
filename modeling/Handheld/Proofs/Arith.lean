import Handheld.Arith
import Handheld.Width
import Mathlib.Algebra.Ring.Int.Defs

/-!
Arithmetic of the machine is arithmetic on integers, of which 32 bits are kept.
-/
namespace Handheld

def truthInt (p : Prop) [Decidable p] : Int :=
  if p then -1 else 0

def Binary.meaning : Binary → Int → Int → Int
  | add, a, b => a + b
  | sub, a, b => a - b
  | mul, a, b => a * b
  | div, a, b => a.tdiv b
  | mod, a, b => if b = 0 then 0 else a.tmod b
  | and, a, b => (BitVec.ofInt 32 a &&& BitVec.ofInt 32 b).toInt
  | or, a, b => (BitVec.ofInt 32 a ||| BitVec.ofInt 32 b).toInt
  | xor, a, b => (BitVec.ofInt 32 a ^^^ BitVec.ofInt 32 b).toInt
  | shl, a, b => a * 2 ^ (b % 32).toNat
  | shr, a, b => a / 2 ^ (b % 32).toNat
  | eq, a, b => truthInt (a = b)
  | ne, a, b => truthInt (a ≠ b)
  | lt, a, b => truthInt (a < b)
  | gt, a, b => truthInt (b < a)
  | le, a, b => truthInt (a ≤ b)
  | ge, a, b => truthInt (b ≤ a)

theorem truth_eq_truthInt {b : Bool} {p : Prop} [Decidable p] (h : b = true ↔ p) :
    truth b = Int32.ofInt (truthInt p) := by
  unfold truth truthInt
  by_cases hp : p
  · rw [h.mpr hp, if_pos hp]
    rfl
  · have hb : b = false := by simpa [hp] using h
    rw [hb, if_neg hp]
    rfl

theorem toInt_eq_or (b : Int32) : b.toInt = b.toBitVec.toNat ∨ b.toInt = (b.toBitVec.toNat : Int) - 2 ^ 32 := by
  have hint : b.toInt = (b.toBitVec.toNat : Int).bmod (2 ^ 32) := BitVec.toInt_eq_toNat_bmod b.toBitVec
  have hlt := b.toBitVec.isLt
  rw [hint, Int.bmod_def]
  split <;> omega

theorem toNat_smod_and_31 (b : Int32) : ((b &&& 31).toBitVec.smod 32).toNat = (b.toInt % 32).toNat := by
  have hand : (b &&& 31).toBitVec.toNat = b.toBitVec.toNat % 32 :=
    Nat.and_two_pow_sub_one_eq_mod b.toBitVec.toNat 5
  have hlt : (b &&& 31).toBitVec.toNat < 32 := by omega
  have hsmod : (b &&& 31).toBitVec.smod 32 = (b &&& 31).toBitVec := by
    apply BitVec.eq_of_toInt_eq
    rw [BitVec.toInt_smod, BitVec.toInt_eq_toNat_of_lt (by omega)]
    have hpos : (32 : BitVec 32).toInt = 32 := rfl
    exact Int.fmod_eq_of_lt (by omega) (by omega)
  have hint := toInt_eq_or b
  rw [hsmod, hand]
  omega

theorem ofInt_toInt_toBitVec (x : BitVec 32) : (Int32.ofInt x.toInt).toBitVec = x := by
  rw [Int32.toBitVec_ofInt, BitVec.ofInt_toInt]

theorem ofInt_two_pow (n : Nat) : BitVec.ofInt 32 (2 ^ n) = BitVec.twoPow 32 n := by
  apply BitVec.eq_of_toNat_eq
  have hcast : (2 : Int) ^ n = (2 ^ n : Nat) := by norm_cast
  rw [hcast, BitVec.ofInt_natCast, BitVec.toNat_ofNat, BitVec.toNat_twoPow]

theorem Binary.apply_eq_meaning (op : Binary) (a b : Int32) :
    op.apply a b = Int32.ofInt (op.meaning a.toInt b.toInt) := by
  cases op with
  | add => rw [apply, meaning, Int32.ofInt_add, Int32.ofInt_toInt, Int32.ofInt_toInt]
  | sub => rw [apply, meaning, Int32.ofInt_sub, Int32.ofInt_toInt, Int32.ofInt_toInt]
  | mul => rw [apply, meaning, Int32.ofInt_mul, Int32.ofInt_toInt, Int32.ofInt_toInt]
  | div =>
    rw [apply, meaning, ← Int32.toInt_inj, Int32.toInt_ofInt]
    split
    next hzero =>
      rw [beq_iff_eq] at hzero
      subst hzero
      simp
    next => exact Int32.toInt_div a b
  | mod =>
    rw [apply, meaning]
    by_cases hzero : b = 0
    · subst hzero
      rfl
    · have hint : b.toInt ≠ 0 := by
        rw [← Int32.toInt_zero, ne_eq, Int32.toInt_inj]
        exact hzero
      rw [if_neg (by simpa using hzero), if_neg hint, ← Int32.toInt_mod, Int32.ofInt_toInt]
  | and | or | xor =>
    rw [apply, meaning, ← Int32.toBitVec_inj, ofInt_toInt_toBitVec]
    simp [← Int32.toBitVec_ofInt]
  | shl =>
    rw [apply, meaning, ← Int32.toBitVec_inj, Int32.toBitVec_shiftLeft, Int32.toBitVec_ofInt]
    rw [BitVec.shiftLeft_eq', toNat_smod_and_31, BitVec.shiftLeft_eq_mul_twoPow, BitVec.ofInt_mul]
    rw [← Int32.toBitVec_ofInt a.toInt, Int32.ofInt_toInt, ofInt_two_pow]
  | shr =>
    have hshift : (a >>> (b &&& 31)).toInt = a.toInt / 2 ^ (b.toInt % 32).toNat := by
      rw [← Int32.toInt_toBitVec, Int32.toBitVec_shiftRight, BitVec.toInt_sshiftRight',
        toNat_smod_and_31, Int32.toInt_toBitVec, Int.shiftRight_eq_div_pow]
      norm_cast
    rw [apply, meaning, ← hshift, Int32.ofInt_toInt]
  | eq | ne => exact truth_eq_truthInt (by simp [Int32.toInt_inj])
  | lt | gt => exact truth_eq_truthInt (by simp [Int32.lt_iff_toInt_lt])
  | le | ge => exact truth_eq_truthInt (by simp [Int32.le_iff_toInt_le])

theorem neg_eq_ofInt (a : Int32) : -a = Int32.ofInt (-a.toInt) := by
  rw [Int32.ofInt_neg, Int32.ofInt_toInt]

theorem not_eq_ofInt (a : Int32) : ~~~a = Int32.ofInt (-a.toInt - 1) := by
  rw [Int32.ofInt_sub, Int32.ofInt_neg, Int32.ofInt_toInt, Int32.not_eq_neg_sub]
  rfl

theorem lnot_eq_ofInt (a : Int32) : truth (a == 0) = Int32.ofInt (truthInt (a.toInt = 0)) := by
  apply truth_eq_truthInt
  rw [beq_iff_eq, ← Int32.toInt_inj]
  rfl

def Width.fit : Width → Int → Int
  | byte, n => n % 256
  | word, n => n.bmod 65536
  | dword, n => n

theorem Width.normalize_eq_fit (w : Width) (v : Int32) : w.normalize v = Int32.ofInt (w.fit v.toInt) := by
  cases w with
  | byte =>
    have hand : (v &&& 0xFF).toBitVec.toNat = v.toBitVec.toNat % 256 :=
      Nat.and_two_pow_sub_one_eq_mod v.toBitVec.toNat 8
    have hint := toInt_eq_or v
    rw [normalize, fit, ← Int32.toBitVec_inj, Int32.toBitVec_ofInt]
    apply BitVec.eq_of_toNat_eq
    rw [hand, BitVec.toNat_ofInt]
    omega
  | word =>
    rw [normalize, fit, ← Int32.toInt_inj, Int16.toInt_toInt32, Int32.toInt_toInt16, Int32.toInt_ofInt]
    have hle : -32768 ≤ v.toInt.bmod 65536 := Int.le_bmod (by decide)
    have hlt : v.toInt.bmod 65536 < 32768 := Int.bmod_lt (by decide)
    exact (Int.bmod_eq_of_le (Int.le_trans (by decide) hle) (Int.lt_trans hlt (by decide))).symm
  | dword => rw [normalize, fit, Int32.ofInt_toInt]

theorem Width.normalize_normalize (w : Width) (v : Int32) : w.normalize (w.normalize v) = w.normalize v := by
  cases w with
  | byte => rw [normalize, normalize, Int32.and_assoc, Int32.and_self]
  | word => rw [normalize, normalize, Int16.toInt16_toInt32]
  | dword => rfl

end Handheld
