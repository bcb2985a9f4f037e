import Handheld.Proofs.Text.Numeral
import Handheld.Text.Quoted

/-!
Quoted strings read back: `unquoteChars` undoes `quoteChars`.
-/
namespace Handheld.Text

variable {width n : Nat} {c : Char} {b : UInt8} {cs : List Char}

def isPrintable (c : Char) : Bool :=
  0x20 ≤ c.toNat && c.toNat ≤ 0x7E

theorem isPrintable_toUpper_digitChar {d : Nat} (hd : d < 16) :
    isPrintable d.digitChar.toUpper ∧ d.digitChar.toUpper ≠ '\\' ∧ d.digitChar.toUpper ≠ '"' := by
  interval_cases d <;> decide

theorem length_padLeft_upperHex (hw : 0 < width) (hn : n < 16 ^ width) :
    (padLeft width '0' (upperHex n)).length = width := by
  have := (Nat.length_toDigits_le_iff (b := 16) (by omega) hw).mpr hn
  simp only [padLeft, upperHex, lowerHex, List.length_append, List.length_replicate, List.length_map]
  omega

theorem mem_padLeft_upperHex (h : c ∈ padLeft width '0' (upperHex n)) : ∃ d, d < 16 ∧ c = d.digitChar.toUpper := by
  simp only [padLeft, List.mem_append, List.mem_replicate, upperHex, lowerHex, List.mem_map] at h
  rcases h with ⟨_, rfl⟩ | ⟨c', hc', rfl⟩
  · exact ⟨0, by omega, by decide⟩
  · obtain ⟨d, hd, rfl⟩ := mem_toDigits (by omega) hc'
    exact ⟨d, hd, rfl⟩

inductive Quotes (b : UInt8) : List Char → Prop where
  | letter (c : Char) (hc : escapedLetter? c = some b) (hx : c ≠ 'x') (hp : isPrintable c) :
    Quotes b ['\\', c]
  | self (c : Char) (hc : Utf8.encode [c] = [b]) (hb : c ≠ '\\') (hq : c ≠ '"')
      (hp : isPrintable c) :
    Quotes b [c]
  | hex (x y : Char) (h : escapedHex? [x, y] = some b)
      (hx : isPrintable x ∧ x ≠ '\\' ∧ x ≠ '"') (hy : isPrintable y ∧ y ≠ '\\' ∧ y ≠ '"') :
    Quotes b ['\\', 'x', x, y]

theorem quotes_hex (b : UInt8) : Quotes b (['\\', 'x'] ++ padLeft 2 '0' (upperHex b.toNat)) := by
  have hb : b.toNat < 16 ^ 2 := b.toNat_lt
  have hlen := length_padLeft_upperHex (by omega) hb
  have hval := numeral?_padLeft_upperHex 2 b.toNat
  have hmem := fun c => @mem_padLeft_upperHex 2 b.toNat c
  generalize padLeft 2 '0' (upperHex b.toNat) = ds at hlen hval hmem
  match ds, hlen with
  | [x, y], _ =>
    obtain ⟨d, hd, rfl⟩ := hmem x (by simp)
    obtain ⟨d', hd', rfl⟩ := hmem y (by simp)
    have hplus : d.digitChar.toUpper ≠ '+' := by interval_cases d <;> decide
    apply Quotes.hex
    · simp [escapedHex?, hplus, hval]
    · exact isPrintable_toUpper_digitChar hd
    · exact isPrintable_toUpper_digitChar hd'

theorem toNat_ofNat_of_lt (h : n < 0x80) : (Char.ofNat n).toNat = n := by
  have hv : n.isValidChar := Or.inl (by omega)
  rw [Char.ofNat, dif_pos hv]
  rfl

theorem encode_singleton_ofNat (h : b.toNat < 0x80) : Utf8.encode [Char.ofNat b.toNat] = [b] := by
  have hval : (Char.ofNat b.toNat).val.toNat = b.toNat := toNat_ofNat_of_lt h
  simp only [Utf8.encode, List.flatMap_cons, List.flatMap_nil, List.append_nil]
  rw [String.utf8EncodeChar, hval]
  have : b.toNat ≤ 127 := by omega
  simp [this]

theorem quotes_self (hlow : 0x20 ≤ b) (hhigh : b ≤ 0x7E) (hb : b ≠ 0x5C) (hq : b ≠ 0x22)
    : Quotes b [Char.ofNat b.toNat] := by
  rw [UInt8.le_iff_toNat_le] at hlow hhigh
  rw [Ne, ← UInt8.toNat_inj] at hb hq
  have hlow : 0x20 ≤ b.toNat := hlow
  have hhigh : b.toNat ≤ 0x7E := hhigh
  have hval := @toNat_ofNat_of_lt b.toNat (by omega)
  apply Quotes.self
  · exact encode_singleton_ofNat (by omega)
  · intro h
    rw [h] at hval
    exact hb hval.symm
  · intro h
    rw [h] at hval
    exact hq hval.symm
  · simp [isPrintable, hval, hlow, hhigh]

theorem quotes_quoteByte (b : UInt8) : Quotes b (quoteByte b) := by
  unfold quoteByte
  split
  next h => simp only [beq_iff_eq] at h; subst h; exact .letter 'n' rfl (by decide) (by decide)
  split
  next h => simp only [beq_iff_eq] at h; subst h; exact .letter 'r' rfl (by decide) (by decide)
  split
  next h => simp only [beq_iff_eq] at h; subst h; exact .letter 't' rfl (by decide) (by decide)
  split
  next h => simp only [beq_iff_eq] at h; subst h; exact .letter '\\' rfl (by decide) (by decide)
  split
  next h => simp only [beq_iff_eq] at h; subst h; exact .letter '"' rfl (by decide) (by decide)
  split
  next hb hq h =>
    simp only [Bool.and_eq_true, decide_eq_true_eq] at h
    simp only [beq_iff_eq] at hb hq
    exact quotes_self h.1 h.2 hb hq
  next => exact quotes_hex b

theorem Quotes.isPrintable (hq : Quotes b cs) (h : c ∈ cs) : isPrintable c := by
  have hslash : Text.isPrintable '\\' := by decide
  have hletter : Text.isPrintable 'x' := by decide
  cases hq with
  | letter c' _ _ hp =>
    simp only [List.mem_cons, List.not_mem_nil, or_false] at h
    rcases h with rfl | rfl <;> assumption
  | self c' _ _ _ hp =>
    simp only [List.mem_cons, List.not_mem_nil, or_false] at h
    rwa [h]
  | hex x y _ hx hy =>
    simp only [List.mem_cons, List.not_mem_nil, or_false] at h
    rcases h with rfl | rfl | rfl | rfl
    · exact hslash
    · exact hletter
    · exact hx.1
    · exact hy.1

theorem isPrintable_of_mem_quoteChars {bytes : List UInt8} (h : c ∈ quoteChars bytes) : isPrintable c := by
  simp only [quoteChars, List.cons_append, List.mem_cons, List.mem_append, List.mem_flatMap,
    List.not_mem_nil, or_false] at h
  rcases h with rfl | ⟨b, _, hc⟩ | rfl
  · decide
  · exact (quotes_quoteByte b).isPrintable hc
  · decide

theorem unescape_append (h : Quotes b cs) (rest : List Char) :
    unescape (cs ++ rest) = (unescape rest).map (b :: ·) := by
  cases h with
  | letter c hc hx _ =>
    rw [List.cons_append, List.singleton_append]
    rw [unescape]
    · simp [hc, Option.map_eq_bind]
    · simp [hx]
    · simp [hx]
  | self c hc hb _ _ =>
    rw [List.singleton_append]
    rw [unescape]
    · simp [hc, Option.map_eq_bind]
    all_goals simp [hb]
  | hex x y h _ _ =>
    simp only [List.cons_append, List.nil_append, unescape, h]
    cases unescape rest <;> rfl

theorem unescape_flatMap_quoteByte (bytes : List UInt8) : unescape (bytes.flatMap quoteByte) = some bytes := by
  induction bytes with
  | nil => simp [unescape]
  | cons b bytes ih =>
    rw [List.flatMap_cons, unescape_append (quotes_quoteByte b), ih]
    rfl

theorem unquoteChars_quoteChars (bytes : List UInt8) : unquoteChars (quoteChars bytes) = some bytes := by
  simp [quoteChars, unquoteChars, unescape_flatMap_quoteByte]

end Handheld.Text
