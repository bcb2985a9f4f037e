import Handheld.Image

/-!
Headers that are read from an image can be written again; one that is written is read back if its entry point or its
screen size can do without the bytes that both of them use.
-/
namespace Handheld.Header

variable {h : Header} {image : List UInt8} {n : UInt16}

theorem length_toBytes (h : Header) : h.toBytes.length = length := by
  simp [toBytes, magic, length]

theorem check_eq_ok_iff {h' : Header} {size : Nat} :
    h.check size = .ok h'
      ↔ h' = h ∧ h.geometryFits ∧ defaultEntry ≤ h.entry ∧ h.entry.toNat < size := by
  unfold check
  split
  next hfits =>
    rw [Bool.not_eq_true'] at hfits
    simp [hfits]
  next hfits =>
    rw [Bool.not_eq_true', Bool.not_eq_false] at hfits
    split
    next hentry =>
      simp only [Bool.or_eq_true, decide_eq_true_eq] at hentry
      simp only [reduceCtorEq, false_iff, not_and, Nat.not_lt]
      intro _ _ hle
      exact hentry.resolve_left (UInt32.not_lt.mpr hle)
    next hentry =>
      simp only [Bool.or_eq_true, decide_eq_true_eq, not_or, UInt32.not_lt, Nat.not_le] at hentry
      simp [hfits, hentry, eq_comm]

theorem unit_encodable (b : UInt8) : (b.toUInt16 * 16) % 16 = 0 ∧ b.toUInt16 * 16 / 16 ≤ 0xFF := by
  have hlt := b.toNat_lt
  constructor
  · rw [← UInt16.toNat_inj]
    simp
  · rw [UInt16.le_iff_toNat_le]
    simp only [UInt16.toNat_div, UInt16.toNat_mul, UInt8.toNat_toUInt16, UInt16.reduceToNat]
    omega

theorem geometryEncodable_withPlace (hdefault : h.geometryEncodable) (a b c : UInt8)
    (hfits : (h.withPlace a b c).geometryFits)
    : (h.withPlace a b c).geometryEncodable := by
  have hb := unit_encodable b
  have hc := unit_encodable c
  revert hfits
  unfold withPlace
  split
  next =>
    intro hfits
    simp [geometryEncodable, hb, hc, hfits]
  next =>
    split
    next => exact fun _ => hdefault
    next => exact fun _ => hdefault

theorem geometryEncodable_of_parse (hparse : parse image = .ok h) : h.geometryEncodable := by
  unfold parse at hparse
  split at hparse
  next =>
    split at hparse
    next => simp at hparse
    next =>
      obtain ⟨rfl, hfits, -⟩ := check_eq_ok_iff.mp hparse
      exact geometryEncodable_withPlace (by simp [geometryEncodable, geometryFits]) _ _ _ hfits
  next => simp at hparse

theorem length_le_of_parse (hparse : parse image = .ok h) : length ≤ image.length := by
  unfold parse at hparse
  split at hparse
  next => simp [length]
  next => simp at hparse

theorem unit_mul (h : n % 16 = 0) (hle : n / 16 ≤ 0xFF) : (n / 16).toUInt8.toUInt16 * 16 = n := by
  have hmod : n.toNat % 16 = 0 := by
    rw [← UInt16.toNat_inj, UInt16.toNat_mod] at h
    exact h
  have hlt := n.toNat_lt
  rw [UInt16.le_iff_toNat_le, UInt16.toNat_div] at hle
  simp only [UInt16.reduceToNat] at hle
  rw [← UInt16.toNat_inj]
  simp only [UInt16.toNat_mul, UInt8.toNat_toUInt16, UInt16.toNat_toUInt8, UInt16.toNat_div, UInt16.reduceToNat]
  omega

theorem unit_ne_zero (h : n % 16 = 0) (hle : n / 16 ≤ 0xFF) (hpos : 0 < n) : (n / 16).toUInt8 ≠ 0 := by
  intro hzero
  have hmul := unit_mul h hle
  rw [hzero] at hmul
  exact absurd hmul (UInt16.ne_of_lt hpos)

theorem withPlace_place {h0 : Header} (hencodable : h.geometryEncodable) (hentry : h.entry = defaultEntry)
    (hdefault : (h0.width, h0.height) = (160, 80))
    : h0.withPlace h.place.1 h.place.2.1 h.place.2.2 = { h0 with width := h.width, height := h.height } := by
  simp only [geometryEncodable, geometryFits, Bool.and_eq_true, beq_iff_eq, decide_eq_true_eq] at hencodable
  obtain ⟨⟨⟨⟨hwidth, hheight⟩, hcolumns⟩, hrows⟩, ⟨⟨hpos, -⟩, -⟩, -⟩ := hencodable
  rw [place, if_neg (by simp [hentry])]
  split
  next =>
    have hne := unit_ne_zero hwidth hcolumns hpos
    dsimp only
    rw [withPlace, if_pos (by simp [hne]), unit_mul hwidth hcolumns, unit_mul hheight hrows]
  next hsame =>
    rw [bne_iff_ne, ne_eq, Decidable.not_not, ← hdefault, Prod.mk.injEq] at hsame
    rw [hsame.1, hsame.2]
    rfl

theorem parse_toBytes_append (h : Header) (code : List UInt8) :
    parse (h.toBytes ++ code)
      = ({ version := h.version, mask := h.mask : Header }.withPlace h.place.1 h.place.2.1 h.place.2.2).check
          (length + code.length) := by
  rw [← length_toBytes h, ← List.length_append]
  rfl

theorem parse_toBytes {code : List UInt8} (hencodable : h.geometryEncodable)
    (hentry : h.entry = defaultEntry) (hcode : code ≠ [])
    : parse (h.toBytes ++ code) = .ok h := by
  rw [parse_toBytes_append, withPlace_place hencodable hentry rfl, check_eq_ok_iff]
  have hlength := List.length_pos_iff.mpr hcode
  have heq : h = { h with entry := defaultEntry } := by
    rw [← hentry]
  refine ⟨?_, ?_, UInt32.le_refl _, ?_⟩
  · exact heq
  · simp only [geometryEncodable, Bool.and_eq_true] at hencodable
    exact hencodable.2
  · exact Nat.lt_add_of_pos_right hlength

theorem toNat_joined (a b c : UInt8) :
    (a.toUInt32 ||| b.toUInt32 <<< 8 ||| c.toUInt32 <<< 16).toNat
      = c.toNat * 65536 + (b.toNat * 256 + a.toNat) := by
  have ha := a.toNat_lt
  have hb := b.toNat_lt
  have hc := c.toNat_lt
  have hlow : a.toNat ||| b.toNat <<< 8 = b.toNat * 256 + a.toNat := by
    rw [Nat.or_comm, ← Nat.shiftLeft_add_eq_or_of_lt ha, Nat.shiftLeft_eq]
  have hhigh : b.toNat * 256 + a.toNat ||| c.toNat <<< 16 = c.toNat * 65536 + (b.toNat * 256 + a.toNat) := by
    rw [Nat.or_comm, ← Nat.shiftLeft_add_eq_or_of_lt (by omega), Nat.shiftLeft_eq]
  have hb' : b.toNat <<< 8 % 4294967296 = b.toNat <<< 8 := by
    rw [Nat.shiftLeft_eq]
    omega
  have hc' : c.toNat <<< 16 % 4294967296 = c.toNat <<< 16 := by
    rw [Nat.shiftLeft_eq]
    omega
  rw [← hhigh, ← hlow]
  simp [hb', hc']

theorem withPlace_of_low {a : UInt8} (ha : a ≠ 0) (h : Header) (b c : UInt8) :
    h.withPlace a b c = { h with entry := a.toUInt32 ||| b.toUInt32 <<< 8 ||| c.toUInt32 <<< 16 } := by
  simp [withPlace, ha]

theorem entry_withPlace_zero (h : Header) (b c : UInt8) : (h.withPlace 0 b c).entry = h.entry := by
  unfold withPlace
  split
  next => rfl
  next => rfl

theorem place_of_entry (hentry : h.entry ≠ defaultEntry) :
    h.place = (h.entry.toUInt8, (h.entry >>> 8).toUInt8, (h.entry >>> 16).toUInt8) := by
  rw [place, if_pos (by simpa using hentry)]

theorem toUInt8_ne_zero_iff (n : UInt32) : n.toUInt8 ≠ 0 ↔ n.toNat % 256 ≠ 0 := by
  rw [ne_eq, ← UInt8.toNat_inj]
  simp

theorem joined_eq_iff (n : UInt32) :
    n.toUInt8.toUInt32 ||| (n >>> 8).toUInt8.toUInt32 <<< 8 ||| (n >>> 16).toUInt8.toUInt32 <<< 16 = n
      ↔ n.toNat < 0x1000000 := by
  rw [← UInt32.toNat_inj, toNat_joined]
  simp only [UInt32.toNat_toUInt8, UInt32.toNat_shiftRight, UInt32.reduceToNat, Nat.shiftRight_eq_div_pow,
    Nat.reduceMod, Nat.reducePow]
  have := n.toNat_lt
  omega

/--
The exact set of headers that are read back as they were written: a default entry point leaves the three bytes to the
screen size, and another one has to fit them, be told from a screen size, and lie in the code.
-/
theorem parse_toBytes_iff {h : Header} {code : List UInt8} (hencodable : h.geometryEncodable) (hcode : code ≠ []) :
    parse (h.toBytes ++ code) = .ok h
      ↔ h.entry = 16
        ∨ (h.width = 160 ∧ h.height = 80) ∧ h.entry.toNat < 0x1000000 ∧ h.entry.toNat % 256 ≠ 0
          ∧ 16 < h.entry.toNat ∧ h.entry.toNat < 16 + code.length := by
  by_cases hentry : h.entry = defaultEntry
  · exact iff_of_true (parse_toBytes hencodable hentry hcode) (.inl hentry)
  have hentry' : h.entry ≠ 16 := hentry
  rw [parse_toBytes_append, check_eq_ok_iff, place_of_entry hentry, ← toUInt8_ne_zero_iff]
  by_cases hlow : h.entry.toUInt8 = 0
  · -- the bytes are taken for a screen size, or for none
    dsimp only
    rw [hlow]
    simp only [hentry', ne_eq, not_true_eq_false, false_and, and_false, or_false, iff_false]
    rintro ⟨heq, -⟩
    have hdefault := congrArg entry heq
    rw [entry_withPlace_zero] at hdefault
    exact hentry hdefault
  · rw [withPlace_of_low hlow]
    constructor
    · rintro ⟨heq, -, hle, hlt⟩
      have hkept : _ = h.entry := (congrArg entry heq).symm
      rw [hkept] at hle hlt
      rw [UInt32.le_iff_toNat_le] at hle
      have hne : h.entry.toNat ≠ 16 := fun h16 => hentry (UInt32.toNat_inj.mp h16)
      refine .inr ⟨⟨congrArg width heq, congrArg height heq⟩, (joined_eq_iff _).mp hkept, hlow, ?_, hlt⟩
      exact Nat.lt_of_le_of_ne hle hne.symm
    · rintro (hdefault | ⟨⟨hwidth, hheight⟩, hsmall, -, hlate, hinside⟩)
      · exact absurd hdefault hentry
      · dsimp only
        rw [(joined_eq_iff _).mpr hsmall]
        refine ⟨?_, by simp [geometryFits], ?_, hinside⟩
        · rw [← hwidth, ← hheight]
        · rw [UInt32.le_iff_toNat_le]
          exact Nat.le_of_lt hlate

theorem parse_toBytes_iff_late :
    let h : Header := { mask := 0x55, entry := 17 }
    let narrow : Header := { h with width := 128 }
    h.geometryEncodable ∧ parse (h.toBytes ++ [0x00, 0x3A]) = .ok h
      ∧ narrow.geometryEncodable ∧ parse (narrow.toBytes ++ [0x00, 0x3A]) ≠ .ok narrow := by
  refine ⟨by decide, ?_, by decide, ?_⟩
  · exact (parse_toBytes_iff (by decide) (by decide)).mpr (by decide)
  · exact mt (parse_toBytes_iff (by decide) (by decide)).mp (by decide)

end Handheld.Header
