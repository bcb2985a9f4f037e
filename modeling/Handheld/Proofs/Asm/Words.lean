import Handheld.Asm.Line
import Handheld.Asm.Statement
import Handheld.Proofs.Text.Quoted

/-!
Words of assembly text: a line of words is split into these words, and a written operand is read as it was meant.
-/
namespace Handheld.Asm

open Text

variable {c : Char} {w : List Char} {n width : Nat}

def isPlain (c : Char) : Bool :=
  !(c == ';' || c == '"' || c == ',' || isBlank c)

def IsWord (w : List Char) : Prop :=
  w ≠ [] ∧ ∀ acc cs, wordsFrom .outside acc (w ++ cs) = wordsFrom .outside (w.reverse ++ acc) cs

theorem wordsFrom_plain (h : isPlain c) (acc cs : List Char) :
    wordsFrom .outside acc (c :: cs) = wordsFrom .outside (c :: acc) cs := by
  simp only [isPlain, Bool.not_eq_true', Bool.or_eq_false_iff] at h
  simp [wordsFrom, h]

theorem isWord_of_plain (hne : w ≠ []) (h : ∀ c ∈ w, isPlain c) : IsWord w := by
  refine ⟨hne, ?_⟩
  clear hne
  induction w with
  | nil => simp
  | cons c w ih =>
    intro acc cs
    rw [List.cons_append, wordsFrom_plain (h c (by simp))]
    rw [ih (fun c' hc' => h c' (by simp [hc']))]
    simp

theorem wordsFrom_inside (hb : c ≠ '\\') (hq : c ≠ '"') (acc cs : List Char) :
    wordsFrom .inside acc (c :: cs) = wordsFrom .inside (c :: acc) cs := by
  simp [wordsFrom, hb, hq]

theorem wordsFrom_quotes {b : UInt8} (h : Quotes b w) (acc cs : List Char) :
    wordsFrom .inside acc (w ++ cs) = wordsFrom .inside (w.reverse ++ acc) cs := by
  cases h with
  | letter c _ _ _ => simp [wordsFrom]
  | self c _ hb hq _ => exact wordsFrom_inside hb hq acc cs
  | hex x y _ hx hy =>
    have hslash : wordsFrom .inside acc ('\\' :: 'x' :: x :: y :: cs)
        = wordsFrom .inside ('x' :: '\\' :: acc) (x :: y :: cs) := by
      simp [wordsFrom]
    simp only [List.cons_append, List.nil_append, hslash]
    rw [wordsFrom_inside hx.2.1 hx.2.2, wordsFrom_inside hy.2.1 hy.2.2]
    rfl

theorem wordsFrom_flatMap_quoteByte (bytes : List UInt8) (acc cs : List Char) :
    wordsFrom .inside acc (bytes.flatMap quoteByte ++ cs)
      =
    wordsFrom .inside ((bytes.flatMap quoteByte).reverse ++ acc) cs := by
  induction bytes generalizing acc with
  | nil => simp
  | cons b bytes ih =>
    rw [List.flatMap_cons, List.append_assoc, wordsFrom_quotes (quotes_quoteByte b), ih]
    simp

theorem isWord_quoteChars (bytes : List UInt8) : IsWord (quoteChars bytes) := by
  refine ⟨by simp [quoteChars], ?_⟩
  intro acc cs
  have hopen : ∀ cs', wordsFrom .outside acc ('"' :: cs') = wordsFrom .inside ('"' :: acc) cs' := by
    simp [wordsFrom]
  have hclose : ∀ acc', wordsFrom .inside acc' ('"' :: cs) = wordsFrom .outside ('"' :: acc') cs := by
    simp [wordsFrom]
  simp only [quoteChars, List.cons_append, List.append_assoc, List.nil_append, hopen]
  rw [wordsFrom_flatMap_quoteByte, hclose]
  simp

theorem wordsFrom_space (acc cs : List Char) :
    wordsFrom .outside acc (' ' :: cs) = (wordsFrom .outside [] cs).map (addWord acc) := by
  simp [wordsFrom, show isBlank ' ' = true from rfl]

theorem words_space (cs : List Char) : words (' ' :: cs) = words cs := by
  simp only [words, wordsFrom_space]
  cases wordsFrom .outside [] cs <;> rfl

theorem words_append_flatMap (hw : IsWord w) {ws : List (List Char)} (hws : ∀ v ∈ ws, IsWord v)
    : words (w ++ ws.flatMap (' ' :: ·)) = .ok (w :: ws) := by
  have hadd : ∀ vs, addWord w.reverse vs = w :: vs := by
    simp [addWord, hw.1]
  induction ws generalizing w with
  | nil =>
    rw [List.flatMap_nil, words, hw.2]
    simp [wordsFrom, hadd]
  | cons v vs ih =>
    have hv := hws v (by simp)
    have ih := ih hv (fun v' hv' => hws v' (by simp [hv'])) (by simp [addWord, hv.1])
    rw [words, hw.2, List.flatMap_cons, List.cons_append, wordsFrom_space]
    rw [words] at ih
    rw [ih]
    simp [Except.map, hadd]

theorem isPlain_digitChar {d : Nat} (hd : d < 16) : isPlain d.digitChar ∧ isPlain d.digitChar.toUpper := by
  interval_cases d <;> decide

theorem isPlain_of_mem_toDigits {radix : Nat} (hr : 1 < radix) (hr' : radix ≤ 16) (h : c ∈ Nat.toDigits radix n)
    : isPlain c := by
  obtain ⟨d, hd, rfl⟩ := mem_toDigits hr h
  exact (isPlain_digitChar (by omega)).1

theorem isPlain_of_mem_hex (h : c ∈ (hex width n).toList) : isPlain c := by
  rw [hex, String.toList_ofList] at h
  obtain ⟨d, hd, rfl⟩ := mem_padLeft_upperHex h
  exact (isPlain_digitChar hd).2

theorem isPlain_of_mem_toString {n : Int} (h : c ∈ (toString n).toList) : isPlain c := by
  cases n with
  | ofNat n =>
    rw [Int.ofNat_eq_natCast, toList_toString_ofNat] at h
    exact isPlain_of_mem_toDigits (by omega) (by omega) h
  | negSucc n =>
    rw [toList_toString_negSucc, List.mem_cons] at h
    cases h with
    | inl h => rw [h]; decide
    | inr h => exact isPlain_of_mem_toDigits (by omega) (by omega) h

theorem isWord_toString (n : Int) : IsWord (toString n).toList := by
  apply isWord_of_plain
  · cases n with
    | ofNat n =>
      rw [Int.ofNat_eq_natCast, toList_toString_ofNat]
      exact Nat.toDigits_ne_nil
    | negSucc n =>
      rw [toList_toString_negSucc]
      exact List.cons_ne_nil _ _
  · intro c hc
    exact isPlain_of_mem_toString hc

theorem magnitude?_toDigits (h : n < 2 ^ 63) : magnitude? (Nat.toDigits 10 n) = some (n : Int) := by
  have hval := numeral?_toDigits_ten n
  have hmem := fun c => @mem_toDigits 10 (by omega) n c
  have hin : inInt64 n = true := by
    simp only [inInt64, Bool.and_eq_true, decide_eq_true_eq]
    omega
  match hds : Nat.toDigits 10 n with
  | [] => exact absurd hds Nat.toDigits_ne_nil
  | c :: cs =>
    rw [hds] at hval hmem
    have hdigit : ∀ d < 10, d.digitChar.isDigit ∧ d.digitChar ≠ '+' ∧ d.digitChar ≠ '-'
        ∧ d.digitChar ≠ 'x' ∧ d.digitChar ≠ 'X' := by decide
    obtain ⟨d, hd, rfl⟩ := hmem c (by simp)
    have hsigned : signed? 10 (d.digitChar :: cs) = some (n : Int) := by
      rw [signed?]
      · rw [hval]
        rfl
      · intro cs' h
        simp only [List.cons.injEq] at h
        exact (hdigit d hd).2.1 h.1
      · intro cs' h
        simp only [List.cons.injEq] at h
        exact (hdigit d hd).2.2.1 h.1
    rw [magnitude?]
    · simp [(hdigit d hd).1, hsigned, hin]
    · intro ds _ h
      obtain ⟨d', hd', hx⟩ := hmem 'x' (by simp [h])
      exact (hdigit d' hd').2.2.2.1 hx.symm
    · intro ds _ h
      obtain ⟨d', hd', hx⟩ := hmem 'X' (by simp [h])
      exact (hdigit d' hd').2.2.2.2 hx.symm

theorem integer?_toString {n : Int} (h : n.natAbs < 2 ^ 63) : integer? (toString n).toList = some n := by
  cases n with
  | ofNat n =>
    have hhead : ∀ cs, Nat.toDigits 10 n ≠ '-' :: cs := by
      intro cs hcs
      have hminus : '-' ∈ Nat.toDigits 10 n := by simp [hcs]
      obtain ⟨d, hd, hd'⟩ := mem_toDigits (by omega) hminus
      revert hd'
      interval_cases d <;> decide
    rw [Int.ofNat_eq_natCast, toList_toString_ofNat, integer?]
    · exact magnitude?_toDigits h
    · exact hhead
  | negSucc n =>
    rw [toList_toString_negSucc]
    simp only [integer?, magnitude?_toDigits (n := n + 1) h, Option.map_some]
    rfl

theorem integer?_hex (h : n < 2 ^ 63) : integer? ("0x" ++ hex width n).toList = some (n : Int) := by
  have hval := numeral?_padLeft_upperHex width n
  have hmem := fun c => @mem_padLeft_upperHex width n c
  have hin : inInt64 n = true := by
    simp only [inInt64, Bool.and_eq_true, decide_eq_true_eq]
    omega
  have hsign : ∀ d < 16, d.digitChar.toUpper ≠ '+' ∧ d.digitChar.toUpper ≠ '-' := by decide
  have hsigned : signed? 16 (padLeft width '0' (upperHex n)) = some (n : Int) := by
    rw [signed?]
    · rw [hval]
      rfl
    · intro cs h
      obtain ⟨d, hd, hd'⟩ := hmem '+' (by simp [h])
      exact (hsign d hd).1 hd'.symm
    · intro cs h
      obtain ⟨d, hd, hd'⟩ := hmem '-' (by simp [h])
      exact (hsign d hd).2 hd'.symm
  simp [hex, integer?, magnitude?, hsigned, hin]

end Handheld.Asm
