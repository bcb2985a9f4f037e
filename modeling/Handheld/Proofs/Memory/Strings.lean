import Handheld.Proofs.Memory

/-!
Blocks and strings, which may wrap at the top. What was written is read back unless it comes round to its own first
byte.
-/
namespace Handheld.Memory

variable {m m' : Memory} {a : UInt16} {bytes : List UInt8} {len : Nat}

theorem add_ofNat_zero (a : UInt16) : a + UInt16.ofNat 0 = a :=
  UInt16.add_zero a

theorem add_ofNat_succ (a : UInt16) (i : Nat) : a + UInt16.ofNat (i + 1) = a + 1 + UInt16.ofNat i := by
  rw [Nat.add_comm, UInt16.ofNat_add, ← UInt16.add_assoc]
  rfl

theorem add_ofNat_add (a : UInt16) (i j : Nat) : a + UInt16.ofNat (i + j) = a + UInt16.ofNat i + UInt16.ofNat j := by
  rw [UInt16.ofNat_add, UInt16.add_assoc]

theorem add_ofNat_inj {i j : Nat} (hi : i < 0x10000) (hj : j < 0x10000)
    (h : a + UInt16.ofNat i = a + UInt16.ofNat j) : i = j := by
  rw [← toNat_add_ofNat_sub a hi, h, toNat_add_ofNat_sub a hj]

theorem add_ofNat_sub (a b : UInt16) : a + UInt16.ofNat (b - a).toNat = b := by
  rw [UInt16.ofNat_toNat, UInt16.add_comm, UInt16.sub_add_cancel]

theorem ext_byte (h : ∀ b, m'.byte b = m.byte b) : m' = m := by
  obtain ⟨bytes⟩ := m
  obtain ⟨bytes'⟩ := m'
  congr
  apply Vector.ext
  intro i hi
  have hbyte := h (UInt16.ofNat i)
  have haddr : (UInt16.ofNat i).toNat = i := UInt16.toNat_ofNat_of_lt' hi
  simpa only [byte, haddr] using hbyte

def ChangedWithin (a : UInt16) (len : Nat) (m m' : Memory) : Prop :=
  ∀ b, (∀ i < len, a + UInt16.ofNat i ≠ b) → m'.byte b = m.byte b

def Apart (a : UInt16) (len : Nat) (a' : UInt16) (len' : Nat) : Prop :=
  ∀ i < len, ∀ j < len', a + UInt16.ofNat i ≠ a' + UInt16.ofNat j

theorem length_slice (m : Memory) (a : UInt16) (len : Nat) : (m.slice a len).length = len := by
  induction len generalizing a with
  | zero => rfl
  | succ len ih => rw [slice, List.length_cons, ih]

theorem slice_add (m : Memory) (a : UInt16) (n k : Nat) :
    m.slice a (n + k) = m.slice a n ++ m.slice (a + UInt16.ofNat n) k := by
  induction n generalizing a with
  | zero => rw [Nat.zero_add, slice, List.nil_append, add_ofNat_zero]
  | succ n ih => rw [Nat.add_right_comm, slice, slice, ih, add_ofNat_succ, List.cons_append]

theorem getElem?_slice (m : Memory) (a : UInt16) {i : Nat} (h : i < len) :
    (m.slice a len)[i]? = some (m.byte (a + UInt16.ofNat i)) := by
  obtain ⟨k, rfl⟩ := Nat.exists_eq_add_of_lt h
  have hfront := m.length_slice a i
  rw [Nat.add_assoc, slice_add, List.getElem?_append_right hfront.le, hfront, Nat.sub_self, slice,
    List.getElem?_cons_zero]

theorem slice_eq_of_bytes (h : ∀ i, i < bytes.length → bytes[i]? = some (m.byte (a + UInt16.ofNat i))) :
    m.slice a bytes.length = bytes := by
  apply List.ext_getElem?
  intro i
  rcases Nat.lt_or_ge i bytes.length with hi | hi
  · rw [getElem?_slice m a hi, h i hi]
  · rw [List.getElem?_eq_none (by rwa [length_slice]), List.getElem?_eq_none hi]

theorem slice_congr (h : ∀ i < len, m'.byte (a + UInt16.ofNat i) = m.byte (a + UInt16.ofNat i)) :
    m'.slice a len = m.slice a len := by
  have hlength := m.length_slice a len
  have hslice : m'.slice a (m.slice a len).length = m.slice a len := by
    apply slice_eq_of_bytes
    intro i hi
    rw [hlength] at hi
    rw [getElem?_slice m a hi, h i hi]
  rwa [hlength] at hslice

theorem slice_copyIn (m : Memory) (a : UInt16) (h : bytes.length ≤ 0x10000) :
    (m.copyIn a bytes).slice a bytes.length = bytes := by
  apply slice_eq_of_bytes
  intro i hi
  rw [byte_copyIn_of_mem h hi, List.getD_eq_getElem _ _ hi, List.getElem?_eq_getElem hi]

theorem changedWithin_copyIn (m : Memory) (a : UInt16) (bytes : List UInt8) :
    ChangedWithin a bytes.length m (m.copyIn a bytes) := by
  intro b hb
  induction bytes generalizing m a with
  | nil => rfl
  | cons c bytes ih =>
    have hfirst : a ≠ b := by
      simpa using hb 0 (Nat.zero_lt_succ _)
    rw [copyIn, ih, byte_setByte, if_neg hfirst]
    intro i hi
    rw [← add_ofNat_succ]
    exact hb (i + 1) (Nat.succ_lt_succ hi)

theorem zero_not_mem_cstrUpTo (m : Memory) (a : UInt16) (fuel : Nat) : 0 ∉ m.cstrUpTo a fuel := by
  induction fuel generalizing a with
  | zero => exact List.not_mem_nil
  | succ fuel ih =>
    simp only [cstrUpTo]
    split
    next => exact List.not_mem_nil
    next hbyte =>
      intro hmem
      rcases List.mem_cons.mp hmem with hzero | hmem
      · exact hbyte (by rw [← hzero]; rfl)
      · exact ih (a + 1) hmem

theorem slice_cstrUpTo (m : Memory) (a : UInt16) (fuel : Nat) :
    m.slice a (m.cstrUpTo a fuel).length = m.cstrUpTo a fuel := by
  induction fuel generalizing a with
  | zero => rfl
  | succ fuel ih =>
    simp only [cstrUpTo]
    split
    next => rfl
    next => rw [List.length_cons, slice, ih]

theorem cstrUpTo_eq_of_slice {fuel : Nat} (h : m.slice a (bytes.length + 1) = bytes ++ [0]) (hzero : 0 ∉ bytes)
    (hfuel : bytes.length < fuel) : m.cstrUpTo a fuel = bytes := by
  induction bytes generalizing a fuel with
  | nil =>
    obtain ⟨fuel, rfl⟩ := Nat.exists_eq_succ_of_ne_zero (Nat.ne_zero_of_lt hfuel)
    have hbyte : m.byte a = 0 := List.head_eq_of_cons_eq h
    simp [cstrUpTo, hbyte]
  | cons c bytes ih =>
    obtain ⟨fuel, rfl⟩ := Nat.exists_eq_succ_of_ne_zero (Nat.ne_zero_of_lt hfuel)
    rw [List.length_cons, slice, List.cons_append, List.cons.injEq] at h
    have hne : c ≠ 0 := fun hc => hzero (hc ▸ List.mem_cons_self)
    simp only [cstrUpTo, h.1, beq_iff_eq, if_neg hne]
    rw [ih h.2 (List.not_mem_of_not_mem_cons hzero) (Nat.lt_of_succ_lt_succ hfuel)]

theorem cstrUpTo_congr {fuel : Nat}
    (h : ∀ i ≤ (m.cstrUpTo a fuel).length, m'.byte (a + UInt16.ofNat i) = m.byte (a + UInt16.ofNat i))
    : m'.cstrUpTo a fuel = m.cstrUpTo a fuel := by
  induction fuel generalizing a with
  | zero => rfl
  | succ fuel ih =>
    have hfirst : m'.byte a = m.byte a := by
      simpa using h 0 (Nat.zero_le _)
    simp only [cstrUpTo, hfirst] at h ⊢
    split
    next => rfl
    next hbyte =>
      rw [if_neg hbyte, List.length_cons] at h
      rw [ih]
      intro i hi
      rw [← add_ofNat_succ]
      exact h (i + 1) (Nat.succ_le_succ hi)

theorem zero_not_mem_cstr (m : Memory) (a : UInt16) : 0 ∉ m.cstr a :=
  m.zero_not_mem_cstrUpTo a 0x10000

theorem slice_cstr (m : Memory) (a : UInt16) : m.slice a (m.cstr a).length = m.cstr a :=
  m.slice_cstrUpTo a 0x10000

theorem cstr_eq_of_slice (h : m.slice a (bytes.length + 1) = bytes ++ [0]) (hzero : 0 ∉ bytes)
    (hlen : bytes.length < 0x10000) : m.cstr a = bytes :=
  cstrUpTo_eq_of_slice h hzero hlen

theorem cstr_congr
    (h : ∀ i ≤ (m.cstr a).length, m'.byte (a + UInt16.ofNat i) = m.byte (a + UInt16.ofNat i))
    : m'.cstr a = m.cstr a :=
  cstrUpTo_congr h

theorem putString_eq_copyIn (m : Memory) (a : UInt16) (bytes : List UInt8) :
    m.putString a bytes = m.copyIn a (bytes ++ [0]) := by
  induction bytes generalizing m a with
  | nil => rw [putString, copyIn, List.length_nil, add_ofNat_zero]; rfl
  | cons c bytes ih =>
    rw [List.cons_append, copyIn, ← ih, putString, putString, copyIn, List.length_cons, add_ofNat_succ]

theorem slice_putString (m : Memory) (a : UInt16) (h : bytes.length < 0x10000) :
    (m.putString a bytes).slice a (bytes.length + 1) = bytes ++ [0] := by
  have hlength : (bytes ++ [0]).length = bytes.length + 1 := List.length_append
  rw [putString_eq_copyIn, ← hlength]
  apply slice_copyIn
  omega

theorem changedWithin_putString (m : Memory) (a : UInt16) (bytes : List UInt8) :
    ChangedWithin a (bytes.length + 1) m (m.putString a bytes) := by
  have hlength : (bytes ++ [0]).length = bytes.length + 1 := List.length_append
  rw [putString_eq_copyIn, ← hlength]
  apply changedWithin_copyIn

theorem cstr_putString (hlen : bytes.length < 0x10000) (hzero : 0 ∉ bytes) : (m.putString a bytes).cstr a = bytes :=
  cstr_eq_of_slice (m.slice_putString a hlen) hzero hlen

theorem cstr_putString_append (m : Memory) (a : UInt16) (hzero : 0 ∉ bytes)
    (h : (m.cstr a).length + bytes.length < 0x10000)
    : (m.putString (a + UInt16.ofNat (m.cstr a).length) bytes).cstr a = m.cstr a ++ bytes := by
  have hkept : (m.putString (a + UInt16.ofNat (m.cstr a).length) bytes).slice a (m.cstr a).length
      = m.slice a (m.cstr a).length := by
    apply slice_congr
    intro i hi
    apply changedWithin_putString
    -- the new bytes end before they come round to the old ones
    intro j hj hmeets
    rw [← add_ofNat_add] at hmeets
    have heq := add_ofNat_inj (by omega) (by omega) hmeets
    omega
  apply cstr_eq_of_slice
  · rw [List.length_append, Nat.add_assoc, slice_add, hkept, slice_cstr, slice_putString _ _ (by omega),
      List.append_assoc]
  · rw [List.mem_append]
    rintro (hmem | hmem)
    · exact m.zero_not_mem_cstr a hmem
    · exact hzero hmem
  · rwa [List.length_append]

end Handheld.Memory
