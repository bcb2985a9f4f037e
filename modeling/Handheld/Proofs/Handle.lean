import Handheld.Handle
import Mathlib.Data.Nat.Bitwise

/-!
A handle is read back from its one-word form.
-/
namespace Handheld.Handle

def tag (h : Handle) : Nat :=
  h.width.code.toNat + if h.relative then 0x80 else 0

theorem toNat_encode (h : Handle) : h.encode.toUInt32.toNat = 2 ^ 16 * h.tag + h.addr.toNat := by
  have haddr := h.addr.toNat_lt
  rw [encode, UInt32.toUInt32_toInt32, UInt32.or_assoc, UInt32.toNat_or, UInt16.toNat_toUInt32, Nat.or_comm,
    Nat.two_pow_add_eq_or_of_lt haddr]
  congr 1
  unfold tag
  cases h.width <;> cases h.relative <;> rfl

theorem decode_encode (h : Handle) : decode h.encode = h := by
  have haddr := h.addr.toNat_lt
  have hbits := h.toNat_encode
  have hlow : h.encode.toUInt32.toUInt16 = h.addr := by
    rw [← UInt16.toNat_inj, UInt32.toNat_toUInt16, hbits]
    omega
  have hcode : ((h.encode.toUInt32 >>> 16) &&& 3).toNat = h.width.code.toNat := by
    rw [UInt32.toNat_and, UInt32.toNat_shiftRight, hbits]
    have hshift : (2 ^ 16 * h.tag + h.addr.toNat) >>> ((16 : UInt32).toNat % 32) = h.tag := by
      change (2 ^ 16 * h.tag + h.addr.toNat) >>> 16 = h.tag
      rw [Nat.shiftRight_eq_div_pow]
      omega
    rw [hshift]
    unfold tag
    cases h.width <;> cases h.relative <;> rfl
  have hwidth : Width.ofCode (h.encode.toUInt32 >>> 16) = h.width := by
    unfold Width.ofCode
    simp only [beq_iff_eq, ← UInt32.toNat_inj, hcode]
    cases h.width <;> rfl
  have hrelative : (h.encode.toUInt32 &&& relativeBit != 0) = h.relative := by
    have hbit : (h.encode.toUInt32 &&& relativeBit).toNat = if h.relative then 2 ^ 23 else 0 := by
      rw [UInt32.toNat_and, hbits]
      change (2 ^ 16 * h.tag + h.addr.toNat) &&& 2 ^ 23 = _
      rw [Nat.and_two_pow, Nat.testBit_eq_decide_div_mod_eq]
      unfold tag
      cases h.width <;> cases h.relative <;> simp [Width.code] <;> omega
    rw [Bool.eq_iff_iff, bne_iff_ne, ne_eq, ← UInt32.toNat_inj, hbit]
    cases h.relative <;> simp
  rw [decode, hlow, hwidth, hrelative]

end Handheld.Handle
