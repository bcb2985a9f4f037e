import Handheld.Asm.Listing
import Handheld.Proofs.Asm.Linking
import Mathlib.Tactic.Ring

/-!
Numbers in images, lowest byte first. Signed and unsigned readings of the same bytes are written alike.
-/
namespace Handheld.Asm

theorem valueOf_lt (bs : List UInt8) : valueOf bs < 256 ^ bs.length := by
  induction bs with
  | nil => simp [valueOf]
  | cons b bs ih =>
    have hb := b.toNat_lt
    rw [valueOf, List.length_cons, Nat.pow_succ]
    omega

theorem byteOf_congr {x y : Int} (h : x % 256 = y % 256) : byteOf x = byteOf y := by
  have h' : x % 2 ^ 8 = y % 2 ^ 8 := h
  rw [byteOf, byteOf, UInt8.ofInt, UInt8.ofInt, h']

theorem littleEndian_congr {n : Nat} {x y : Int} (h : (256 ^ n : Int) ∣ x - y) :
    littleEndian n x = littleEndian n y := by
  induction n generalizing x y with
  | zero => rfl
  | succ n ih =>
    obtain ⟨k, hk⟩ := h
    have hx : x = y + 256 * (256 ^ n * k) := by
      have : x = y + 256 ^ (n + 1) * k := by omega
      rw [this, pow_succ]
      ring
    rw [littleEndian, littleEndian]
    congr 1
    · apply byteOf_congr
      rw [hx, Int.add_mul_emod_self_left]
    · apply ih
      rw [hx, Int.add_mul_ediv_left _ _ (by omega)]
      exact ⟨k, by ring⟩

theorem littleEndian_valueOf (bs : List UInt8) : littleEndian bs.length (valueOf bs) = bs := by
  induction bs with
  | nil => rfl
  | cons b bs ih =>
    have hb := b.toNat_lt
    have hdiv : ((b.toNat + 256 * valueOf bs : Nat) : Int) / 256 = (valueOf bs : Nat) := by omega
    have hbyte : UInt8.ofNat (b.toNat + 256 * valueOf bs) = b := by
      rw [← UInt8.toNat_inj, UInt8.toNat_ofNat']
      omega
    rw [List.length_cons, valueOf, littleEndian, hdiv, ih, byteOf_natCast, hbyte]

theorem valueOf_littleEndian {n v : Nat} (h : v < 256 ^ n) : valueOf (littleEndian n v) = v := by
  induction n generalizing v with
  | zero =>
    rw [Nat.pow_zero] at h
    simp only [littleEndian, valueOf]
    omega
  | succ n ih =>
    rw [Nat.pow_succ] at h
    have hdiv : ((v : Nat) : Int) / 256 = (v / 256 : Nat) := by omega
    have hlt : v / 256 < 256 ^ n := by
      rw [Nat.div_lt_iff_lt_mul (by omega)]
      exact h
    rw [littleEndian, hdiv, valueOf, ih hlt, byteOf_natCast, UInt8.toNat_ofNat']
    omega

theorem littleEndian_word (v : Nat) : littleEndian 2 (UInt16.ofNat v).toInt16.toInt = littleEndian 2 v := by
  apply littleEndian_congr
  have hval : (UInt16.ofNat v).toInt16.toInt = Int.bmod v 65536 := Int16.toInt_ofNat
  have hpow : (256 ^ 2 : Int) = 65536 := rfl
  rw [hval, hpow, Int.bmod]
  split <;> omega

theorem littleEndian_dword (v : Nat) : littleEndian 4 (UInt32.ofNat v).toInt32.toInt = littleEndian 4 v := by
  apply littleEndian_congr
  have hval : (UInt32.ofNat v).toInt32.toInt = Int.bmod v 4294967296 := Int32.toInt_ofNat
  have hpow : (256 ^ 4 : Int) = 4294967296 := rfl
  rw [hval, hpow, Int.bmod]
  split <;> omega

end Handheld.Asm
