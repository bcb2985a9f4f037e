import Handheld.Memory
import Mathlib.Data.Nat.Bitwise

/-!
Reading from memory what was written there. An access touches its own bytes only, also where it wraps at the top.
-/
namespace Handheld

variable {m' : Memory} {i start : Nat} {data : Array UInt8}

variable {a b : UInt16} {len : Nat} {m : Memory} {v : UInt32} {bytes : List UInt8} {w : Width}

namespace Memory

theorem byte_setByte (m : Memory) (a b : UInt16) (v : UInt8) :
    (m.setByte a v).byte b = if a = b then v else m.byte b := by
  unfold byte setByte
  rw [Vector.getElem_set]
  simp only [UInt16.toNat_inj]

theorem toNat_heapStart : heapStart.toNat = 0xE000 :=
  rfl

theorem byte_blank (a : UInt16) : blank.byte a = 0 := by
  simp [byte, blank]

theorem toNat_sub_of_ne (h : a ≠ b) : (b - a).toNat = (b - (a + 1)).toNat + 1 := by
  have ha := a.toNat_lt
  have hb := b.toNat_lt
  have hne : a.toNat ≠ b.toNat := fun heq => h (UInt16.toNat_inj.mp heq)
  rw [UInt16.toNat_sub, UInt16.toNat_sub, UInt16.toNat_add, UInt16.toNat_one]
  omega

theorem toNat_sub_succ (a : UInt16) : (a - (a + 1)).toNat = 0xFFFF := by
  have ha := a.toNat_lt
  rw [UInt16.toNat_sub, UInt16.toNat_add, UInt16.toNat_one]
  omega

theorem le_toNat_sub (h : a.toNat + len ≤ 0x10000) (hb : b.toNat < a.toNat ∨ a.toNat + len ≤ b.toNat) :
    len ≤ (b - a).toNat := by
  have ha := a.toNat_lt
  have hbound := b.toNat_lt
  rw [UInt16.toNat_sub]
  omega

theorem byte_writeLE_of_le (h : len ≤ (b - a).toNat) : (m.writeLE a len v).byte b = m.byte b := by
  induction len generalizing m a v with
  | zero => rfl
  | succ len ih =>
    have hne : a ≠ b := by
      rintro rfl
      simp at h
    have hnext := toNat_sub_of_ne hne
    rw [writeLE, ih (by omega), byte_setByte, if_neg hne]

theorem byte_writeLE_of_not_mem (h : a.toNat + len ≤ 0x10000) (hb : b.toNat < a.toNat ∨ a.toNat + len ≤ b.toNat)
    : (m.writeLE a len v).byte b = m.byte b :=
  byte_writeLE_of_le (le_toNat_sub h hb)

theorem readLE_congr_of_lt {m : Memory} (h : ∀ b : UInt16, (b - a).toNat < len → m'.byte b = m.byte b) :
    m'.readLE a len = m.readLE a len := by
  induction len generalizing a with
  | zero => rfl
  | succ len ih =>
    rw [readLE, readLE, h a (by simp), ih]
    intro b hb
    by_cases heq : a = b
    · subst heq
      exact h a (by simp)
    · have hnext := toNat_sub_of_ne heq
      exact h b (by omega)

theorem readLE_congr {m : Memory} (h : a.toNat + len ≤ 0x10000)
    (hbytes : ∀ b : UInt16, a.toNat ≤ b.toNat → b.toNat < a.toNat + len → m'.byte b = m.byte b)
    : m'.readLE a len = m.readLE a len := by
  apply readLE_congr_of_lt
  intro b hb
  have hmem : ¬(b.toNat < a.toNat ∨ a.toNat + len ≤ b.toNat) := fun hb' => absurd (le_toNat_sub h hb') (by omega)
  exact hbytes b (by omega) (by omega)

theorem toNat_shiftLeft_or {x : UInt32} {b : UInt8} (h : x.toNat < 2 ^ 24) :
    (x <<< 8 ||| b.toUInt32).toNat = x.toNat * 256 + b.toNat := by
  have hb := b.toNat_lt
  rw [UInt32.toNat_or, UInt32.toNat_shiftLeft, UInt8.toNat_toUInt32]
  have hshift : x.toNat <<< ((8 : UInt32).toNat % 32) = x.toNat <<< 8 := rfl
  rw [hshift, Nat.shiftLeft_eq, Nat.mod_eq_of_lt (by omega), ← Nat.shiftLeft_eq]
  rw [← Nat.shiftLeft_add_eq_or_of_lt (by omega), Nat.shiftLeft_eq]

theorem byte_writeLE_first (h : len < 0x10000) : (m.writeLE a (len + 1) v).byte a = v.toUInt8 := by
  -- the rest of the bytes ends before it comes round to the first one
  have hlast := toNat_sub_succ a
  rw [writeLE, byte_writeLE_of_le (by omega), byte_setByte, if_pos rfl]

theorem toNat_readLE_writeLE_of_le {k len : Nat} (h : len ≤ 0x10000) (hk : k ≤ len) (hfour : k ≤ 4) :
    ((m.writeLE a len v).readLE a k).toNat = v.toNat % 256 ^ k := by
  induction k generalizing m a v len with
  | zero => simp [readLE, Nat.mod_one]
  | succ k ih =>
    obtain ⟨len, rfl⟩ : ∃ n, len = n + 1 := ⟨len - 1, by omega⟩
    have hrest : ((m.writeLE a (len + 1) v).readLE (a + 1) k).toNat = v.toNat / 256 % 256 ^ k := by
      rw [writeLE, ih (by omega) (by omega) (by omega), UInt32.toNat_shiftRight]
      have hshift : v.toNat >>> ((8 : UInt32).toNat % 32) = v.toNat >>> 8 := rfl
      rw [hshift, Nat.shiftRight_eq_div_pow]
    have hpow : 256 ^ k ≤ 2 ^ 24 := Nat.pow_le_pow_right (by omega) (by omega : k ≤ 3)
    have hsmall := Nat.mod_lt (v.toNat / 256) (Nat.pow_pos (n := k) (by omega : 0 < 256))
    rw [readLE, byte_writeLE_first h, toNat_shiftLeft_or (by omega), hrest, Nat.pow_succ, Nat.mul_comm (256 ^ k),
      Nat.mod_mul, UInt32.toNat_toUInt8]
    omega

theorem toNat_readLE_writeLE (hlen : len ≤ 4) : ((m.writeLE a len v).readLE a len).toNat = v.toNat % 256 ^ len :=
  toNat_readLE_writeLE_of_le (by omega) (Nat.le_refl len) hlen

theorem byte_copyIn (h : bytes.length ≤ 0x10000) (b : UInt16) :
    (m.copyIn a bytes).byte b = bytes[(b - a).toNat]?.getD (m.byte b) := by
  induction bytes generalizing m a with
  | nil => rfl
  | cons c bytes ih =>
    rw [List.length_cons] at h
    rw [copyIn, ih (by omega), byte_setByte]
    split
    next heq =>
      subst heq
      rw [toNat_sub_succ, List.getElem?_eq_none (by omega), UInt16.sub_self]
      rfl
    next hne => rw [toNat_sub_of_ne hne, List.getElem?_cons_succ]

theorem toNat_add_ofNat_sub (a : UInt16) (h : i < 0x10000) : (a + UInt16.ofNat i - a).toNat = i := by
  have ha := a.toNat_lt
  rw [UInt16.toNat_sub, UInt16.toNat_add, UInt16.toNat_ofNat']
  omega

theorem byte_copyIn_of_mem (h : bytes.length ≤ 0x10000) (hi : i < bytes.length) :
    (m.copyIn a bytes).byte (a + UInt16.ofNat i) = bytes.getD i 0 := by
  rw [byte_copyIn h, toNat_add_ofNat_sub a (by omega), List.getElem?_eq_getElem hi, List.getD_eq_getElem _ _ hi,
    Option.getD_some]

theorem byte_copyIn_of_not_mem (h : a.toNat + bytes.length ≤ 0x10000)
    (hb : b.toNat < a.toNat ∨ a.toNat + bytes.length ≤ b.toNat)
    : (m.copyIn a bytes).byte b = m.byte b := by
  rw [byte_copyIn (by omega), List.getElem?_eq_none (le_toNat_sub h hb), Option.getD_none]

theorem toNat_add_ofNat {n : Nat} (h : a.toNat + n < 0x10000) : (a + UInt16.ofNat n).toNat = a.toNat + n := by
  rw [UInt16.toNat_add, UInt16.toNat_ofNat']
  omega

theorem byte_putString_of_not_mem (h : a.toNat + bytes.length < 0x10000)
    (hb : b.toNat < a.toNat ∨ a.toNat + bytes.length < b.toNat)
    : (m.putString a bytes).byte b = m.byte b := by
  have hstop := toNat_add_ofNat h
  have hne : a + UInt16.ofNat bytes.length ≠ b := by
    rintro rfl
    omega
  rw [putString, byte_setByte, if_neg hne, byte_copyIn_of_not_mem (by omega) (by omega)]

end Memory

theorem Width.normalize_congr {x y : Int32} (h : x.toUInt32.toNat % 256 ^ w.bytes = y.toUInt32.toNat % 256 ^ w.bytes)
    : w.normalize x = w.normalize y := by
  have h : x.toBitVec.toNat % 256 ^ w.bytes = y.toBitVec.toNat % 256 ^ w.bytes := h
  cases w with
  | byte =>
    have hmask : ∀ v : Int32, (v &&& 0xFF).toBitVec.toNat = v.toBitVec.toNat % 256 := fun v =>
      Nat.and_two_pow_sub_one_eq_mod v.toBitVec.toNat 8
    rw [normalize, normalize, ← Int32.toBitVec_inj]
    apply BitVec.eq_of_toNat_eq
    rw [hmask, hmask]
    exact h
  | word =>
    have hcut : x.toInt16 = y.toInt16 := by
      rw [← Int16.toBitVec_inj]
      apply BitVec.eq_of_toNat_eq
      rw [Int32.toBitVec_toInt16, Int32.toBitVec_toInt16, BitVec.signExtend_eq_setWidth_of_le _ (by omega),
        BitVec.signExtend_eq_setWidth_of_le _ (by omega), BitVec.toNat_setWidth, BitVec.toNat_setWidth]
      exact h
    rw [normalize, normalize, hcut]
  | dword =>
    have hx := x.toBitVec.isLt
    have hy := y.toBitVec.isLt
    have heq : x.toBitVec.toNat = y.toBitVec.toNat := by
      rwa [show 256 ^ dword.bytes = 2 ^ 32 from rfl, Nat.mod_eq_of_lt hx, Nat.mod_eq_of_lt hy] at h
    rw [normalize, normalize, ← Int32.toBitVec_inj]
    exact BitVec.eq_of_toNat_eq heq

namespace Memory

theorem read_writeLE {v : Int32} (h : len ≤ 0x10000) (hw : w.bytes ≤ len) :
    (m.writeLE a len v.toUInt32).read a w = w.normalize v := by
  have hbytes : w.bytes ≤ 4 := by cases w <;> decide
  apply Width.normalize_congr
  rw [UInt32.toUInt32_toInt32, toNat_readLE_writeLE_of_le h hw hbytes, Nat.mod_mod]

theorem read_write (m : Memory) (a : UInt16) (w : Width) (v : Int32) : (m.write a w v).read a w = w.normalize v :=
  read_writeLE (by cases w <;> decide) (Nat.le_refl _)

theorem read_write_of_disjoint {w w' : Width} {v : Int32} (ha : a.toNat + w.bytes ≤ 0x10000)
    (hb : b.toNat + w'.bytes ≤ 0x10000) (h : b.toNat + w'.bytes ≤ a.toNat ∨ a.toNat + w.bytes ≤ b.toNat)
    : (m.write a w v).read b w' = m.read b w' := by
  rw [read, read, write, readLE_congr hb]
  intro c hlow hhigh
  exact byte_writeLE_of_not_mem ha (by omega)

def SameOutside (start len : Nat) (m m' : Memory) : Prop :=
  ∀ a : UInt16, a.toNat < start ∨ start + len ≤ a.toNat → m'.byte a = m.byte a

theorem SameOutside.refl (start len : Nat) (m : Memory) : SameOutside start len m m :=
  fun _ _ => rfl

theorem SameOutside.trans {len : Nat} {m m'' : Memory} (h : SameOutside start len m m')
    (h' : SameOutside start len m' m'') : SameOutside start len m m'' :=
  fun a ha => (h' a ha).trans (h a ha)

theorem byte_setIfInBounds (m : Memory) (i : Nat) (v : UInt8) (a : UInt16) :
    (Memory.mk (m.bytes.setIfInBounds i v)).byte a = if i = a.toNat then v else m.byte a := by
  unfold byte
  rw [Vector.getElem_setIfInBounds]

theorem byte_setRegion_go (m : Memory) (start : Nat) (data : Array UInt8) (i : Nat) (a : UInt16) :
    (setRegion.go start data m i).byte a
      = if a.toNat < start + i then m.byte a else data[a.toNat - start]?.getD (m.byte a) := by
  fun_induction setRegion.go start data m i with
  | case1 m i hi ih =>
    rw [ih, byte_setIfInBounds]
    rcases Nat.lt_trichotomy a.toNat (start + i) with hlt | heq | hgt
    · rw [if_pos (by omega), if_pos hlt, if_neg (by omega)]
    · have hindex : a.toNat - start = i := by omega
      rw [if_pos (by omega), if_pos heq.symm, if_neg (by omega), hindex, Array.getElem?_eq_getElem hi, Option.getD_some]
    · rw [if_neg (by omega), if_neg (by omega), if_neg (by omega)]
  | case2 m i hi =>
    split
    next => rfl
    next => rw [Array.getElem?_eq_none (by omega), Option.getD_none]

theorem byte_setRegion (m : Memory) (start : Nat) (data : Array UInt8) (a : UInt16) :
    (m.setRegion start data).byte a
      = if a.toNat < start then m.byte a else data[a.toNat - start]?.getD (m.byte a) :=
  byte_setRegion_go m start data 0 a

theorem getElem?_region (m : Memory) {len : Nat} (h : start + len ≤ 0x10000) (hi : i < len) :
    (m.region start len)[i]? = some (m.byte (UInt16.ofNat (start + i))) := by
  have hbyte : m.bytes.toArray[start + i]? = some (m.byte (UInt16.ofNat (start + i))) := by
    have haddr : (UInt16.ofNat (start + i)).toNat = start + i := by
      rw [UInt16.toNat_ofNat']
      omega
    rw [Array.getElem?_eq_getElem (by simpa using (by omega : start + i < 0x10000))]
    simp only [byte, haddr]
    rfl
  rw [region, Array.getElem?_extract, if_pos (by simp; omega), hbyte]

theorem sameOutside_setRegion {len : Nat} (size : Nat)
    (h : ∀ i, len ≤ i → data[i]? = none ∨ data[i]? = (m.region start size)[i]?)
    : SameOutside start len m (m.setRegion start data) := by
  intro a ha
  rw [byte_setRegion]
  split
  next => rfl
  next hstart =>
    rcases h (a.toNat - start) (by omega) with hnone | hsame
    · rw [hnone, Option.getD_none]
    · have hbyte : m.bytes.toArray[a.toNat]? = some (m.byte a) := by
        rw [Array.getElem?_eq_getElem (by simpa using a.toNat_lt)]
        rfl
      rw [hsame, region, Array.getElem?_extract, Nat.add_sub_cancel' (Nat.le_of_not_lt hstart), hbyte]
      split
      next => rfl
      next => rfl

theorem sameOutside_setRegion_of_size_le {len : Nat} (h : data.size ≤ len) :
    SameOutside start len m (m.setRegion start data) := by
  apply sameOutside_setRegion 0
  intro i hi
  exact .inl (Array.getElem?_eq_none (Nat.le_trans h hi))

end Memory
end Handheld
