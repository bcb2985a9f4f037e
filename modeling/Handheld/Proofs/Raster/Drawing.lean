import Handheld.Proofs.Raster.Pixels

/-!
A list of points draws the pixels in it that are on the raster, once each, in whatever order they are listed.
-/
namespace Handheld.Raster

variable {r r' : Raster} {points points' : List Point} {p q : Point} {mode : Mode} {shape : Point → Prop}
  {low high n : Int}

structure Formed (r : Raster) : Prop where
  width : r.width < 0x10000
  height : r.height < 0x10000
  bits : size r.width r.height ≤ r.bits.size

theorem contains_iff : r.contains q = true ↔ 0 ≤ q.1 ∧ q.1 < r.width ∧ 0 ≤ q.2 ∧ q.2 < r.height := by
  simp only [contains, Bool.and_eq_true, decide_eq_true_eq, and_assoc]

theorem get_of_not_contains (hq : r.contains q = false) : r.get q = false := by
  rw [get, hq, Bool.false_and]

theorem eraseRepsBy_loop (p : Point) (points acc : List Point) :
    List.eraseRepsBy.loop (· == ·) p points acc = acc.reverse ++ (p :: points).eraseReps := by
  have happend (p : Point) (points acc : List Point) : List.eraseRepsBy.loop (· == ·) p points acc
      = acc.reverse ++ List.eraseRepsBy.loop (· == ·) p points [] := by
    induction points generalizing p acc with
    | nil => simp [List.eraseRepsBy.loop]
    | cons q points ih =>
      rw [List.eraseRepsBy.loop, List.eraseRepsBy.loop]
      split
      · exact ih p acc
      · rw [ih q (p :: acc), ih q [p]]
        simp
  exact happend p points acc

theorem eraseReps_cons_cons (p q : Point) (points : List Point) :
    (p :: q :: points).eraseReps
      = if p = q then (q :: points).eraseReps else p :: (q :: points).eraseReps := by
  rw [List.eraseReps, List.eraseRepsBy, List.eraseRepsBy.loop]
  split
  next heq =>
    rw [eq_of_beq heq, if_pos rfl]
    rfl
  next hne =>
    rw [if_neg (ne_of_beq_false hne), eraseRepsBy_loop]
    rfl

theorem mem_eraseReps : q ∈ points.eraseReps ↔ q ∈ points := by
  induction points with
  | nil => rfl
  | cons p points ih =>
    cases points with
    | nil => rfl
    | cons p' points =>
      rw [eraseReps_cons_cons]
      split
      next heq => simp [ih, heq]
      next => rw [List.mem_cons, ih, ← List.mem_cons]

theorem nodup_eraseReps {le : Point → Point → Bool} (hanti : ∀ p q, le p q = true → le q p = true → p = q)
    (h : points.Pairwise (le · ·)) : points.eraseReps.Nodup := by
  induction points with
  | nil => exact List.nodup_nil
  | cons p points ih =>
    cases points with
    | nil => exact List.nodup_singleton p
    | cons q points =>
      obtain ⟨hp, hpoints⟩ := List.pairwise_cons.mp h
      rw [eraseReps_cons_cons]
      split
      next => exact ih hpoints
      next hne =>
        refine List.nodup_cons.mpr ⟨fun hmem => hne ?_, ih hpoints⟩
        -- a later occurrence of the first point has the second one between them
        rcases List.mem_cons.mp (mem_eraseReps.mp hmem) with heq | hlater
        · exact heq
        · exact hanti p q (hp q List.mem_cons_self) ((List.pairwise_cons.mp hpoints).1 p hlater)

theorem mem_distinct : q ∈ distinct points ↔ q ∈ points := by
  rw [distinct, mem_eraseReps, List.mem_mergeSort]

theorem nodup_distinct (points : List Point) : (distinct points).Nodup := by
  have hsorted := @List.pairwise_mergeSort Point (fun p q => p.1 < q.1 || p.1 == q.1 && p.2 ≤ q.2)
    (by simp; omega) (by simp; omega) points
  refine nodup_eraseReps ?_ hsorted
  intro p q hle hge
  simp only [Bool.or_eq_true, Bool.and_eq_true, decide_eq_true_eq, beq_iff_eq] at hle hge
  apply Prod.ext <;> omega

theorem draw_congr (h : ∀ p, r.contains p = true → (p ∈ points ↔ p ∈ points')) (mode : Mode) :
    r.draw points mode = r.draw points' mode := by
  refine plots_congr (nodup_distinct points) (nodup_distinct points') (fun p hp => ?_) mode
  rw [mem_distinct, mem_distinct, h p hp]

theorem draw_eq_plots (h : points.Nodup) (mode : Mode) : r.draw points mode = points.foldl (·.plot · mode) r :=
  plots_congr (nodup_distinct points) h (fun _ _ => mem_distinct) mode

/-- A mode is applied once to each pixel of a shape that is on the raster, and nothing else changes. -/
def AppliedOnce (r : Raster) (mode : Mode) (shape : Point → Prop) (r' : Raster) : Prop :=
  ∃ pixels : List Point, pixels.Nodup ∧ (∀ q, q ∈ pixels ↔ r.contains q = true ∧ shape q)
    ∧ r' = pixels.foldl (·.plot · mode) r
    ∧ ∀ q, r'.get q = if q ∈ pixels then mode.on (r.get q) else r.get q

theorem appliedOnce_plots (hbits : size r.width r.height ≤ r.bits.size) (hnodup : points.Nodup)
    (h : ∀ q, r.contains q = true → (q ∈ points ↔ shape q)) (mode : Mode)
    : AppliedOnce r mode shape (points.foldl (·.plot · mode) r) := by
  have hmem (q : Point) : q ∈ points.filter r.contains ↔ r.contains q = true ∧ shape q := by
    rw [List.mem_filter, and_comm]
    exact and_congr_right (h q)
  rw [← plots_filter_contains]
  refine ⟨points.filter r.contains, hnodup.filter _, hmem, rfl, fun q => ?_⟩
  exact get_plots (hnodup.filter _) hbits (fun p hp => ((hmem p).mp hp).1) mode q

theorem appliedOnce_draw (hbits : size r.width r.height ≤ r.bits.size)
    (h : ∀ q, r.contains q = true → (q ∈ points ↔ shape q)) (mode : Mode)
    : AppliedOnce r mode shape (r.draw points mode) :=
  appliedOnce_plots hbits (nodup_distinct points) (fun q hq => mem_distinct.trans (h q hq)) mode

theorem AppliedOnce.get_of_mem (h : AppliedOnce r mode shape r')
    (hq : r.contains q = true) (hshape : shape q) : r'.get q = mode.on (r.get q) := by
  obtain ⟨pixels, -, hmem, -, hget⟩ := h
  rw [hget, if_pos ((hmem q).mpr ⟨hq, hshape⟩)]

theorem AppliedOnce.get_of_not_mem (h : AppliedOnce r mode shape r')
    (hq : ¬ (r.contains q = true ∧ shape q)) : r'.get q = r.get q := by
  obtain ⟨pixels, -, hmem, -, hget⟩ := h
  rw [hget, if_neg (mt (hmem q).mp hq)]

theorem mem_interval : n ∈ interval low high ↔ low ≤ n ∧ n ≤ high := by
  simp only [interval, List.mem_map, List.mem_range]
  constructor
  · rintro ⟨i, hi, rfl⟩
    omega
  · rintro ⟨hlow, hhigh⟩
    exact ⟨(n - low).toNat, by omega, by omega⟩

theorem mem_visible {length : Nat} : n ∈ visible low high length ↔ (low ≤ n ∧ n ≤ high) ∧ 0 ≤ n ∧ n < length := by
  rw [visible, mem_interval]
  omega

end Handheld.Raster
