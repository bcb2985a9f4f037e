import Handheld.Console
import Handheld.Proofs.Text.Utf8

/-!
Draining the console. The text that is taken in parts is the text of all bytes that were written.
-/
namespace Handheld.Console

open Text.Utf8

variable {low high : UInt8} {n bits back : Nat} {a b bytes taken rest : List UInt8}

theorem incompleteTail_eq (bytes : Array UInt8) : incompleteTail bytes = cutShort 1 (bytes.toList.reverse.take 3) := by
  rw [incompleteTail, Array.toList_extract, List.extract_eq_take_drop, List.take_reverse, Array.length_toList,
    List.take_of_length_le]
  simp

theorem isTail_iff (b : UInt8) : (b &&& 0xC0 != 0x80) = !isTail b := by
  have h : ∀ n : Fin 256, (UInt8.ofNat n &&& 0xC0 != 0x80) = !isTail (UInt8.ofNat n) := by decide +kernel
  simpa using h ⟨b.toNat, b.toNat_lt⟩

theorem announced_of_lead {b : UInt8} (h : lead b = some (n, bits, low, high)) : announced b = n + 1 := by
  unfold lead at h
  unfold announced
  simp only [UInt8.le_iff_toNat_le, Bool.and_eq_true, decide_eq_true_eq, beq_iff_eq, ← UInt8.toNat_inj] at h ⊢
  grind

theorem cutShort_append (h : cutShort back (a ++ b) = 0) : cutShort back a = 0 := by
  induction a generalizing back with
  | nil => rfl
  | cons c a ih =>
    simp only [List.cons_append, cutShort] at h ⊢
    split
    next hc => rwa [if_pos hc] at h
    next hc =>
      rw [if_neg hc] at h
      exact ih h

theorem getElem?_of_cutShort (h : 0 < cutShort back bytes) :
    ∃ i b, bytes[i]? = some b ∧ isTail b = false ∧ cutShort back bytes = back + i := by
  induction bytes generalizing back with
  | nil => simp [cutShort] at h
  | cons c bytes ih =>
    simp only [cutShort, isTail_iff] at h ⊢
    cases hc : isTail c with
    | false =>
      simp only [hc, Bool.not_false, ↓reduceIte] at h ⊢
      split at h
      next hback => exact ⟨0, c, rfl, hc, by rw [if_pos hback, Nat.add_zero]⟩
      next => omega
    | true =>
      simp only [hc, Bool.not_true, Bool.false_eq_true, ↓reduceIte] at h ⊢
      obtain ⟨i, b, hb, htail, heq⟩ := ih h
      exact ⟨i + 1, b, hb, htail, by omega⟩

theorem cutShort_take {i : Nat} (hback : 0 < back) (h : cutShort back bytes = back + i) :
    cutShort back (bytes.take (i + 1)) = back + i := by
  induction bytes generalizing back i with
  | nil =>
    simp only [cutShort] at h
    omega
  | cons c bytes ih =>
    simp only [List.take_succ_cons, cutShort] at h ⊢
    split
    next hc => rwa [if_pos hc] at h
    next hc =>
      rw [if_neg hc] at h
      obtain ⟨j, b, -, -, heq⟩ := getElem?_of_cutShort (show 0 < cutShort (back + 1) bytes by omega)
      obtain rfl : i = j + 1 := by omega
      rw [ih (Nat.succ_pos back) heq]
      omega

theorem announced_le_of_cutShort {c : UInt8} (hback : 0 < back)
    (hbytes : ∀ b ∈ bytes, isTail b = true) (hc : isTail c = false) (h : cutShort back (bytes ++ [c]) = 0)
    : announced c ≤ back + bytes.length := by
  induction bytes generalizing back with
  | nil =>
    simp only [List.nil_append, cutShort, isTail_iff, hc, Bool.not_false, ↓reduceIte] at h
    split at h
    next => omega
    next hle => exact Nat.le_of_not_lt hle
  | cons b bytes ih =>
    simp only [List.cons_append, cutShort, isTail_iff, hbytes b (by simp), Bool.not_true, Bool.false_eq_true,
      ↓reduceIte] at h
    have hle := ih (Nat.succ_pos back) (fun b hb => hbytes b (by simp [hb])) h
    rw [List.length_cons]
    omega

def Whole (bytes : List UInt8) : Prop :=
  cutShort 1 (bytes.reverse.take 3) = 0

theorem Whole.of_suffix (h : Whole b) (hsuffix : a <:+ b) : Whole a := by
  obtain ⟨c, rfl⟩ := hsuffix
  rw [Whole, List.reverse_append, List.take_append] at h
  exact cutShort_append h

theorem Whole.enough {c : UInt8} (h : Whole (c :: a)) (hlead : lead c = some (n, bits, low, high)) : Enough n a := by
  have hle := lead_le hlead
  rcases Nat.lt_or_ge a.length n with hlt | hge
  · refine .inr (Classical.byContradiction fun hnone => ?_)
    simp only [not_exists, not_and, Bool.not_eq_false] at hnone
    have hlength : (a.reverse ++ [c]).length ≤ 3 := by
      rw [List.length_append, List.length_reverse, List.length_singleton]
      omega
    rw [Whole, List.reverse_cons, List.take_of_length_le hlength] at h
    have hannounced := announced_le_of_cutShort Nat.one_pos (by simpa using hnone) (isTail_lead hlead) h
    rw [announced_of_lead hlead, List.length_reverse] at hannounced
    omega
  · exact .inl hge

theorem Whole.pieces_append (h : Whole a) (b : List UInt8) : pieces (a ++ b) = pieces a ++ pieces b := by
  fun_induction pieces a with
  | case1 => rfl
  | case2 c a ih =>
    have hsuffix : (next c a).2 <:+ c :: a := (next_suffix c a).trans (List.suffix_cons c a)
    rw [List.cons_append, pieces_cons, next_append (.inr fun _ _ _ _ hlead => h.enough hlead),
      ih (h.of_suffix hsuffix), List.cons_append]

def Apart (taken rest : List UInt8) : Prop :=
  (rest ≠ [] ∧ Leads rest) ∨ ∀ more, pieces (taken ++ more) = pieces taken ++ pieces more

theorem apart_nil (rest : List UInt8) : Apart [] rest :=
  .inr fun _ => by rw [pieces_nil, List.nil_append, List.nil_append]

theorem Apart.pieces_append (h : Apart taken rest) : pieces (taken ++ rest) = pieces taken ++ pieces rest := by
  rcases h with ⟨-, hleads⟩ | h
  · exact pieces_append_of_leads hleads
  · exact h rest

theorem Apart.append (h : Apart taken rest) (more : List UInt8) : Apart taken (rest ++ more) :=
  h.imp (fun ⟨hne, hleads⟩ => ⟨List.append_ne_nil_of_left_ne_nil hne more, hleads.append hne more⟩) id

theorem Apart.pieces_front (h : Apart taken (a ++ b)) : pieces (taken ++ a) = pieces taken ++ pieces a := by
  rcases h with ⟨-, hleads⟩ | h
  · apply pieces_append_of_leads
    intro c hc
    exact hleads c (by rw [List.head?_append, hc, Option.some_or]; rfl)
  · exact h a

theorem Apart.take (h : Apart taken rest) (hn : n = rest.length - cutShort 1 (rest.reverse.take 3))
    : pieces (taken ++ rest.take n) = pieces taken ++ pieces (rest.take n)
        ∧ Apart (taken ++ rest.take n) (rest.drop n) := by
  rcases Nat.eq_zero_or_pos (cutShort 1 (rest.reverse.take 3)) with hzero | hpos
  · -- nothing is cut short, so that all is taken
    rw [hzero, Nat.sub_zero] at hn
    rw [hn, List.take_length, List.drop_length]
    refine ⟨h.pieces_append, .inr fun more => ?_⟩
    rw [List.append_assoc, (h.append more).pieces_append, Whole.pieces_append hzero, h.pieces_append, List.append_assoc]
  · obtain ⟨i, b, hb, htail, heq⟩ := getElem?_of_cutShort hpos
    refine ⟨Apart.pieces_front (b := rest.drop n) ((List.take_append_drop n rest).symm ▸ h), .inl ?_⟩
    rw [List.getElem?_take] at hb
    split at hb
    next =>
      have hi := (List.getElem?_eq_some_iff.mp hb).1
      rw [List.length_reverse] at hi
      rw [List.getElem?_reverse hi] at hb
      have hhead : (rest.drop n).head? = some b := by
        rw [List.head?_drop, hn, heq, Nat.add_comm 1 i, Nat.sub_add_eq, Nat.sub_right_comm]
        exact hb
      refine ⟨fun hnil => by simp [hnil] at hhead, fun c hc => ?_⟩
      rw [hhead] at hc
      cases hc
      exact htail
    next => cases hb

section Queue

variable {c : Console}

def logs (c : Console) : Array UInt8 × Array UInt8 :=
  (c.transcript, c.pending)

theorem logs_newline (c : Console) (m : Memory) : (c.newline m).1.logs = c.logs := by
  unfold newline
  split
  next => rfl
  next => rfl

theorem logs_place (c : Console) (m : Memory) (b : UInt8) : (c.place m b).1.logs = c.logs := by
  unfold place
  dsimp only
  split
  next => exact logs_newline _ _
  next => rfl

theorem logs_put (c : Console) (m : Memory) (b : UInt8) :
    (c.put m b).1.logs = (record c.transcript b, c.pending.push b) := by
  unfold put
  dsimp only
  split
  next => exact logs_newline _ _
  next =>
    split
    next => rfl
    next => exact logs_place _ _ _

theorem pending_put (c : Console) (m : Memory) (b : UInt8) : (c.put m b).1.pending = c.pending.push b :=
  congrArg Prod.snd (logs_put c m b)

theorem pending_write (c : Console) (m : Memory) (bytes : List UInt8) :
    (c.write m bytes).1.pending.toList = c.pending.toList ++ bytes := by
  induction bytes generalizing c m with
  | nil => simp [write]
  | cons b bytes ih =>
    simp only [write]
    rw [ih, pending_put]
    simp

theorem pending_flush (c : Console) : c.flush.2.pending = #[] := by
  unfold flush
  split
  next hempty => simpa using hempty
  next => rfl

theorem hasOutput_of_pending (h : c.pending = #[]) : c.hasOutput = false := by
  simp [hasOutput, h]

theorem toList_takeOutput (c : Console) : c.takeOutput.2.pending.toList = c.pending.toList.drop c.ready := by
  rw [takeOutput, Array.toList_extract, List.extract_eq_take_drop, List.take_of_length_le]
  simp

theorem hasOutput_takeOutput (c : Console) : c.takeOutput.2.hasOutput = false := by
  have hrest := toList_takeOutput c
  have hready : c.ready = c.pending.toList.length - cutShort 1 (c.pending.toList.reverse.take 3) := by
    rw [ready, incompleteTail_eq, Array.length_toList]
  rw [hasOutput, incompleteTail_eq, ← Array.length_toList, hrest]
  simp only [decide_eq_false_iff_not, Nat.not_lt, List.length_drop, List.reverse_drop]
  generalize c.pending.toList = bytes at hready ⊢
  rcases Nat.eq_zero_or_pos (cutShort 1 (bytes.reverse.take 3)) with hzero | hpos
  · omega
  · obtain ⟨i, b, hb, -, heq⟩ := getElem?_of_cutShort hpos
    have hi := (List.getElem?_eq_some_iff.mp hb).1
    rw [List.length_take, List.length_reverse] at hi
    have hlength : bytes.length - c.ready = i + 1 := by omega
    have htake : (bytes.reverse.take (i + 1)).take 3 = (bytes.reverse.take 3).take (i + 1) := by
      rw [List.take_take, List.take_take, Nat.min_comm]
    rw [hlength, htake, cutShort_take Nat.one_pos heq]
    omega

end Queue

section Draining

variable {all : List UInt8} {text : String} {c : Console}

def Told (all : List UInt8) (text : String) (c : Console) : Prop :=
  ∃ taken, all = taken ++ c.pending.toList ∧ Apart taken c.pending.toList ∧ text = decodeLossy taken

theorem told_pending (c : Console) : Told c.pending.toList "" c :=
  ⟨[], rfl, apart_nil _, by simp [decodeLossy]⟩

theorem Told.append (h : Told all text c) {c' : Console}
    (hpending : c'.pending.toList = c.pending.toList ++ bytes) : Told (all ++ bytes) text c' := by
  obtain ⟨taken, rfl, hapart, rfl⟩ := h
  refine ⟨taken, ?_, ?_, rfl⟩
  · rw [hpending, List.append_assoc]
  · rw [hpending]
    exact hapart.append bytes

theorem Told.takeOutput (h : Told all text c) : Told all (text ++ c.takeOutput.1) c.takeOutput.2 := by
  obtain ⟨taken, rfl, hapart, rfl⟩ := h
  have hready : c.ready = c.pending.toList.length - cutShort 1 (c.pending.toList.reverse.take 3) := by
    rw [ready, incompleteTail_eq, Array.length_toList]
  have hfront : (c.pending.extract 0 c.ready).toList = c.pending.toList.take c.ready := by
    simp [List.extract_eq_take_drop]
  have hrest := toList_takeOutput c
  obtain ⟨hpieces, happart⟩ := hapart.take hready
  refine ⟨taken ++ c.pending.toList.take c.ready, ?_, ?_, ?_⟩
  · rw [hrest, List.append_assoc, List.take_append_drop]
  · rw [hrest]
    exact happart
  · rw [decodeLossy_append hpieces, ← hfront]
    rfl

theorem Told.flush (h : Told all text c) : text ++ c.flush.1.getD "" = decodeLossy all := by
  obtain ⟨taken, rfl, hapart, rfl⟩ := h
  rw [decodeLossy_append hapart.pieces_append]
  unfold Console.flush
  split
  next hempty =>
    have hpending : c.pending = #[] := by simpa using hempty
    simp [hpending, decodeLossy]
  next => rfl

inductive Use where
  | put (b : UInt8)
  | take

def putBytes : List Use → List UInt8
  | [] => []
  | .put b :: uses => b :: putBytes uses
  | .take :: uses => putBytes uses

def drain (c : Console) (m : Memory) : List Use → List String × Console
  | [] => ([], c)
  | .put b :: uses => drain (c.put m b).1 (c.put m b).2 uses
  | .take :: uses => (c.takeOutput.1 :: (c.takeOutput.2.drain m uses).1, (c.takeOutput.2.drain m uses).2)

theorem Told.drain (h : Told all text c) (m : Memory) (uses : List Use) :
    Told (all ++ putBytes uses) (text ++ String.join (c.drain m uses).1) (c.drain m uses).2 := by
  induction uses generalizing all text c m with
  | nil => simpa [Console.drain, putBytes] using h
  | cons use uses ih =>
    cases use with
    | put b =>
      have hput : Told (all ++ [b]) text (c.put m b).1 := h.append (by rw [pending_put, Array.toList_push])
      simpa [Console.drain, putBytes] using ih hput (c.put m b).2
    | take => simpa [Console.drain, putBytes, String.append_assoc] using ih h.takeOutput m

theorem join_drain_append_flush (c : Console) (m : Memory) (uses : List Use) :
    String.join (c.drain m uses).1 ++ (c.drain m uses).2.flush.1.getD ""
      = decodeLossy (c.pending.toList ++ putBytes uses) := by
  have h := ((told_pending c).drain m uses).flush
  rwa [String.empty_append] at h

end Draining

end Handheld.Console
