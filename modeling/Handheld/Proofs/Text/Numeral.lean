import Handheld.Text.Numeral
import Mathlib.Tactic.IntervalCases

/-!
Numerals read back: a number written in decimal or hexadecimal is the number that the readers find.
-/
namespace Handheld.Text

variable {n radix : Nat} {cs : List Char} {c : Char}

section Runs

variable {α : Type} {p : α → Bool} {front rest : List α}

theorem takeWhile_append_of_head (h : ∀ x ∈ front, p x = true) (hrest : ∀ x ∈ rest.head?, p x = false) :
    (front ++ rest).takeWhile p = front := by
  have hstop : rest.takeWhile p = [] := by
    cases rest with
    | nil => rfl
    | cons x rest => simp [hrest x rfl]
  rw [List.takeWhile_append_of_pos h, hstop, List.append_nil]

theorem head?_dropWhile (p : α → Bool) (l : List α) : ∀ x ∈ (l.dropWhile p).head?, p x = false := by
  intro x hx
  have hnot := List.head?_dropWhile_not p l
  rw [hx] at hnot
  exact hnot

theorem drop_length_takeWhile (p : α → Bool) (l : List α) : l.drop (l.takeWhile p).length = l.dropWhile p := by
  have hsplit : (l.takeWhile p ++ l.dropWhile p).drop (l.takeWhile p).length = l.dropWhile p := List.drop_left
  rwa [List.takeWhile_append_dropWhile] at hsplit

end Runs

theorem digit?_digitChar {radix d : Nat} (hd : d < radix) (hr : radix ≤ 16) : digit? radix d.digitChar = some d := by
  have hvalue : digit? radix d.digitChar = (some d).filter (· < radix) := by
    have : d < 16 := by omega
    interval_cases d <;> rfl
  rw [hvalue]
  simp [hd]

theorem digit?_toUpper_digitChar {d : Nat} (hd : d < 16) : digit? 16 d.digitChar.toUpper = some d := by
  interval_cases d <;> rfl

theorem numeralFrom_append (radix acc : Nat) (xs ys : List Char) :
    numeralFrom radix acc (xs ++ ys)
      =
    (numeralFrom radix acc xs).bind (numeralFrom radix · ys) := by
  induction xs generalizing acc with
  | nil => rfl
  | cons x xs ih =>
    simp only [List.cons_append, numeralFrom]
    split
    · rw [ih]
    · rfl

theorem numeralFrom_map_toDigits (hr : 1 < radix) (f : Char → Char)
    (hf : ∀ d < radix, digit? radix (f d.digitChar) = some d) (n : Nat)
    : numeralFrom radix 0 ((Nat.toDigits radix n).map f) = some n := by
  induction n using Nat.strongRecOn with
  | ind n ih =>
    rw [Nat.toDigits_eq_if hr]
    split
    next h => simp [numeralFrom, hf n h]
    next h =>
      have hdiv : n / radix < n := Nat.div_lt_self (by omega) hr
      have hmod : n % radix < radix := Nat.mod_lt n (by omega)
      rw [List.map_append, numeralFrom_append, ih _ hdiv]
      simp only [List.map_cons, List.map_nil, Option.bind_some, numeralFrom, hf _ hmod]
      rw [Nat.mul_comm, Nat.div_add_mod]

theorem numeralFrom_replicate_zero (hr : 1 < radix) (hr' : radix ≤ 16) (k : Nat) (cs : List Char) :
    numeralFrom radix 0 (List.replicate k '0' ++ cs) = numeralFrom radix 0 cs := by
  induction k with
  | zero => rfl
  | succ k ih =>
    have hzero : digit? radix '0' = some 0 := digit?_digitChar (d := 0) (by omega) hr'
    rw [List.replicate_succ, List.cons_append, numeralFrom, hzero]
    simpa using ih

theorem mem_toDigits {radix : Nat} (hr : 1 < radix) {n : Nat} {c : Char} (h : c ∈ Nat.toDigits radix n)
    : ∃ d, d < radix ∧ c = d.digitChar := by
  induction n using Nat.strongRecOn with
  | ind n ih =>
    rw [Nat.toDigits_eq_if hr] at h
    split at h
    next hn => exact ⟨n, hn, by simpa using h⟩
    next hn =>
      rw [List.mem_append] at h
      cases h with
      | inl h => exact ih _ (Nat.div_lt_self (by omega) hr) h
      | inr h => exact ⟨n % radix, Nat.mod_lt n (by omega), by simpa using h⟩

theorem numeral?_eq_some_iff : numeral? radix cs = some n ↔ cs ≠ [] ∧ numeralFrom radix 0 cs = some n := by
  cases cs with
  | nil => simp [numeral?]
  | cons c cs => simp [numeral?]

theorem numeral?_map_toDigits (hr : 1 < radix) (f : Char → Char)
    (hf : ∀ d < radix, digit? radix (f d.digitChar) = some d) (n : Nat)
    : numeral? radix ((Nat.toDigits radix n).map f) = some n := by
  rw [numeral?_eq_some_iff, ne_eq, List.map_eq_nil_iff]
  exact ⟨Nat.toDigits_ne_nil, numeralFrom_map_toDigits hr f hf n⟩

theorem numeral?_toDigits_ten (n : Nat) : numeral? 10 (Nat.toDigits 10 n) = some n := by
  have hid : ∀ d < 10, digit? 10 (id d.digitChar) = some d := fun d hd => digit?_digitChar hd (by omega)
  have h := numeral?_map_toDigits (by omega) id hid n
  rwa [List.map_id] at h

theorem numeral?_replicate_zero (hr : 1 < radix) (hr' : radix ≤ 16) (k : Nat) (h : numeral? radix cs = some n)
    : numeral? radix (List.replicate k '0' ++ cs) = some n := by
  obtain ⟨hne, hvalue⟩ := numeral?_eq_some_iff.mp h
  rw [numeral?_eq_some_iff, numeralFrom_replicate_zero hr hr']
  exact ⟨List.append_ne_nil_of_right_ne_nil _ hne, hvalue⟩

theorem numeral?_padLeft_upperHex (width n : Nat) : numeral? 16 (padLeft width '0' (upperHex n)) = some n := by
  apply numeral?_replicate_zero (by omega) (by omega)
  exact numeral?_map_toDigits (by omega) Char.toUpper (fun d => digit?_toUpper_digitChar) n

theorem digit?_bounds {radix d : Nat} (h : digit? radix c = some d) : 0x30 ≤ c.toNat ∧ c.toNat ≤ 0x66 := by
  obtain ⟨hvalue, -⟩ := Option.filter_eq_some_iff.mp h
  simp only [Bool.and_eq_true, decide_eq_true_eq, Char.le_def, UInt32.le_iff_toNat_le] at hvalue
  split at hvalue
  next hc => exact ⟨hc.1, hc.2.trans (by decide)⟩
  next =>
    split at hvalue
    next hc => exact ⟨le_trans (by decide) hc.1, hc.2⟩
    next =>
      split at hvalue
      next hc => exact ⟨le_trans (by decide) hc.1, hc.2.trans (by decide)⟩
      next => cases hvalue

theorem digit?_of_mem_numeral (h : numeral? radix cs = some n) (hc : c ∈ cs) : ∃ d, digit? radix c = some d := by
  obtain ⟨-, hvalue⟩ := numeral?_eq_some_iff.mp h
  clear h
  generalize 0 = acc at hvalue
  induction cs generalizing acc with
  | nil => cases hc
  | cons b cs ih =>
    rw [numeralFrom] at hvalue
    cases hb : digit? radix b with
    | none =>
      rw [hb] at hvalue
      cases hvalue
    | some d =>
      rw [hb] at hvalue
      rcases List.mem_cons.mp hc with rfl | hc
      · exact ⟨d, hb⟩
      · exact ih hc _ hvalue

theorem signed?_of_numeral? (h : numeral? radix cs = some n) : signed? radix cs = some (n : Int) := by
  unfold signed?
  split
  next cs =>
    obtain ⟨d, hd⟩ := digit?_of_mem_numeral h List.mem_cons_self
    exact absurd (digit?_bounds hd) (by decide)
  next cs =>
    obtain ⟨d, hd⟩ := digit?_of_mem_numeral h List.mem_cons_self
    exact absurd (digit?_bounds hd) (by decide)
  next => rw [h]; rfl

structure IsNumeral (radix n : Nat) (cs : List Char) : Prop where
  value : numeral? radix cs = some n
  shortest : ∀ rest, cs = '0' :: rest → rest = []

theorem isNumeral_map_toDigits (hr : 1 < radix) (hr' : radix ≤ 16) (f : Char → Char)
    (hf : ∀ d < radix, digit? radix (f d.digitChar) = some d) (n : Nat)
    : IsNumeral radix n ((Nat.toDigits radix n).map f) := by
  refine ⟨numeral?_map_toDigits hr f hf n, ?_⟩
  induction n using Nat.strongRecOn with
  | ind n ih =>
    intro rest hrest
    rw [Nat.toDigits_eq_if hr] at hrest
    split at hrest
    next h =>
      exact (List.tail_eq_of_cons_eq hrest).symm
    next h =>
      have hdiv : n / radix < n := Nat.div_lt_self (by omega) hr
      have hvalue := numeralFrom_map_toDigits hr f hf (n / radix)
      rw [List.map_append] at hrest
      rcases List.append_eq_cons_iff.mp hrest with ⟨hnil, -⟩ | ⟨front, hfront, -⟩
      · rw [List.map_eq_nil_iff] at hnil
        exact absurd hnil Nat.toDigits_ne_nil
      · -- the digits in front read as zero, but the number does not fit one digit
        have hzero : digit? radix '0' = some 0 := digit?_digitChar (d := 0) (by omega) hr'
        rw [hfront, ih _ hdiv front hfront, numeralFrom, hzero] at hvalue
        have hlt : n / radix = 0 := by simpa [numeralFrom] using hvalue.symm
        exact absurd (Nat.lt_of_div_eq_zero (by omega) hlt) h

theorem isNumeral_toDigits (hr : 1 < radix) (hr' : radix ≤ 16) (n : Nat) :
    IsNumeral radix n (Nat.toDigits radix n) := by
  have h := isNumeral_map_toDigits hr hr' id (fun d hd => digit?_digitChar hd hr') n
  rwa [List.map_id] at h

theorem isNumeral_upperHex (n : Nat) : IsNumeral 16 n (upperHex n) :=
  isNumeral_map_toDigits (by omega) (by omega) Char.toUpper (fun d => digit?_toUpper_digitChar) n

theorem isUpper_of_mem_lowerHex (h : c ∈ lowerHex n) : c.isUpper = false := by
  obtain ⟨d, hd, rfl⟩ := mem_toDigits (by omega) h
  interval_cases d <;> rfl

theorem isLower_of_mem_upperHex (h : c ∈ upperHex n) : c.isLower = false := by
  obtain ⟨b, hb, rfl⟩ := List.mem_map.mp h
  obtain ⟨d, hd, rfl⟩ := mem_toDigits (by omega) hb
  interval_cases d <;> rfl

theorem toList_toString_ofNat (n : Nat) : (toString (n : Int)).toList = Nat.toDigits 10 n := by
  simp [Int.toString_eq_repr, Int.repr]

theorem toList_toString_negSucc (n : Nat) : (toString (Int.negSucc n)).toList = '-' :: Nat.toDigits 10 (n + 1) := by
  simp [Int.toString_eq_repr, Int.repr]

theorem isNumeral_toString (n : Int) :
    ∃ cs, IsNumeral 10 n.natAbs cs ∧ (toString n).toList = (if n < 0 then ['-'] else []) ++ cs := by
  cases n with
  | ofNat n =>
    refine ⟨Nat.toDigits 10 n, isNumeral_toDigits (by omega) (by omega) n, ?_⟩
    rw [Int.ofNat_eq_natCast, toList_toString_ofNat, if_neg (by omega), List.nil_append]
  | negSucc n =>
    refine ⟨Nat.toDigits 10 (n + 1), isNumeral_toDigits (by omega) (by omega) (n + 1), ?_⟩
    rw [toList_toString_negSucc, if_pos (Int.negSucc_lt_zero n), List.singleton_append]

end Handheld.Text
