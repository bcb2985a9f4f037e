import Handheld.Text.Utf8

/-!
Bytes that are read in two parts. The parts give the pieces of the whole if they meet at the start of a character.
-/
namespace Handheld.Text.Utf8

variable {b low high c : UInt8} {n bits acc : Nat} {a : List UInt8}

def Leads (bytes : List UInt8) : Prop :=
  ∀ b ∈ bytes.head?, isTail b = false

def Enough (n : Nat) (bytes : List UInt8) : Prop :=
  n ≤ bytes.length ∨ ∃ b ∈ bytes, isTail b = false

section

variable (h : lead b = some (n, bits, low, high))

include h

theorem lead_tail : 0 < n ∧ 0x80 ≤ low ∧ high ≤ 0xBF := by
  unfold lead at h
  iterate 7
    split at h
    next =>
      simp only [Option.some.injEq, Prod.mk.injEq] at h
      obtain ⟨rfl, -, rfl, rfl⟩ := h
      decide
  cases h

theorem isTail_lead : isTail b = false := by
  unfold lead at h
  simp only [UInt8.le_iff_toNat_le, Bool.and_eq_true, decide_eq_true_eq, beq_iff_eq, ← UInt8.toNat_inj] at h
  simp only [isTail, UInt8.le_iff_toNat_le, Bool.and_eq_false_iff, decide_eq_false_iff_not]
  grind

theorem lead_le : n ≤ 3 := by
  unfold lead at h
  grind

theorem isTail_of_lead {second : UInt8} (hrange : low ≤ second && second ≤ high) : isTail second = true := by
  obtain ⟨-, hlow, hhigh⟩ := lead_tail h
  simp only [Bool.and_eq_true, decide_eq_true_eq] at hrange
  simp only [isTail, Bool.and_eq_true, decide_eq_true_eq]
  exact ⟨UInt8.le_trans hlow hrange.1, UInt8.le_trans hrange.2 hhigh⟩

end

theorem Leads.append {bytes : List UInt8} (h : Leads bytes) (hne : bytes ≠ []) (more : List UInt8) :
    Leads (bytes ++ more) := by
  cases bytes with
  | nil => exact absurd rfl hne
  | cons b bytes => exact h

theorem Enough.tail (h : Enough n (c :: a)) (hc : isTail c = true) : Enough (n - 1) a := by
  simp only [Enough, List.length_cons, List.mem_cons, exists_eq_or_imp, hc, Bool.true_eq_false, false_or] at h
  exact h.imp (by omega) id

theorem tails_append {b : List UInt8} (h : Leads b ∨ Enough n a) :
    tails n acc (a ++ b) = ((tails n acc a).1, (tails n acc a).2 ++ b) := by
  fun_induction tails n acc a with
  | case1 acc a => rw [tails]
  | case2 n acc =>
    cases b with
    | nil => simp [tails]
    | cons c b =>
      have hc : isTail c = false := h.elim (fun hb => hb c rfl) fun ha => by simp [Enough] at ha
      simp [tails, hc]
  | case3 n acc c a hc ih =>
    rw [List.cons_append, tails, if_pos hc, ih (h.imp_right fun ha => ha.tail hc)]
  | case4 n acc c a hc =>
    rw [List.cons_append, tails, if_neg hc]

theorem next_append {b : List UInt8} (h : Leads b ∨ ∀ n bits low high, lead c = some (n, bits, low, high) → Enough n a) :
    next c (a ++ b) = ((next c a).1, (next c a).2 ++ b) := by
  unfold next
  split
  next => rfl
  next =>
    cases hlead : lead c with
    | none => rfl
    | some l =>
      obtain ⟨n, bits, low, high⟩ := l
      replace h : Leads b ∨ Enough n a := h.imp_right fun ha => ha n bits low high hlead
      cases a with
      | cons second a =>
        simp only [List.cons_append]
        split
        next hrange => rw [tails_append (h.imp_right fun ha => ha.tail (isTail_of_lead hlead hrange))]
        next => rfl
      | nil =>
        cases b with
        | nil => rfl
        | cons second b =>
          have hsecond : isTail second = false := h.elim (fun hb => hb second rfl) fun ha => by
            have hpos := (lead_tail hlead).1
            simp only [Enough, List.length_nil, List.not_mem_nil, false_and, exists_false, or_false] at ha
            omega
          have hrange : ¬((low ≤ second && second ≤ high) = true) := by
            intro hrange
            rw [isTail_of_lead hlead hrange] at hsecond
            cases hsecond
          simp only [List.nil_append, if_neg hrange]

@[simp]
theorem pieces_nil : pieces [] = [] := by
  rw [pieces]

theorem pieces_cons (b : UInt8) (rest : List UInt8) :
    pieces (b :: rest) = (next b rest).1 :: pieces (next b rest).2 := by
  rw [pieces]

theorem pieces_append_of_leads {b : List UInt8} (hb : Leads b) : pieces (a ++ b) = pieces a ++ pieces b := by
  fun_induction pieces a with
  | case1 => rfl
  | case2 c a ih =>
    rw [List.cons_append, pieces_cons, next_append (.inl hb), ih, List.cons_append]

theorem tails_suffix (n acc : Nat) (rest : List UInt8) : (tails n acc rest).2 <:+ rest := by
  fun_induction tails n acc rest with
  | case1 | case2 | case4 => exact List.suffix_refl _
  | case3 n acc b rest h ih => exact ih.trans (List.suffix_cons b rest)

theorem next_suffix (b : UInt8) (rest : List UInt8) : (next b rest).2 <:+ rest := by
  unfold next
  split
  next => exact List.suffix_refl _
  next =>
    split
    next n bits low high second rest _ =>
      split
      next => exact (tails_suffix _ _ _).trans (List.suffix_cons second rest)
      next => exact List.suffix_refl _
    next => exact List.suffix_refl _

theorem decodeLossy_append {b : List UInt8} (h : pieces (a ++ b) = pieces a ++ pieces b) :
    decodeLossy (a ++ b) = decodeLossy a ++ decodeLossy b := by
  simp only [decodeLossy, h, List.map_append, String.ofList_append]

end Handheld.Text.Utf8
