import Handheld.Table

/-!
What looking up finds in a table after a change of it.
-/
namespace Handheld.Table

variable {α β : Type} [BEq α]

theorem contains_eq_false_iff {t : List (α × β)} {key : α} : contains t key = false ↔ t.lookup key = none := by
  rw [contains, Option.isSome_eq_false_iff, Option.isNone_iff_eq_none]

theorem contains_iff {t : List (α × β)} {key : α} : contains t key = true ↔ ∃ v, t.lookup key = some v := by
  rw [contains, Option.isSome_iff_exists]

variable [LawfulBEq α]

theorem mem_of_lookup {t : List (α × β)} {key : α} {v : β} (h : t.lookup key = some v) : (key, v) ∈ t := by
  obtain ⟨before, after, rfl, -⟩ := List.lookup_eq_some_iff.mp h
  simp

theorem erase_of_new {t : List (α × β)} {key : α} (h : contains t key = false) : erase t key = t := by
  rw [contains_eq_false_iff, List.lookup_eq_none_iff] at h
  apply List.filter_eq_self.mpr
  intro p hp
  simpa [bne_comm] using h p hp

theorem insert_of_new {t : List (α × β)} {key : α} (h : contains t key = false) (v : β) :
    insert t key v = (key, v) :: t := by
  rw [insert, erase_of_new h]

variable [DecidableEq α]

theorem lookup_erase (t : List (α × β)) (key x : α) :
    (erase t key).lookup x = if x = key then none else t.lookup x := by
  induction t with
  | nil => simp [erase]
  | cons p t ih =>
    obtain ⟨k, v⟩ := p
    unfold erase at ih ⊢
    by_cases hk : k = key
    · rw [List.filter_cons_of_neg (by simpa using hk), ih, List.lookup_cons]
      by_cases hx : x = key
      · rw [if_pos hx, if_pos hx]
      · have hne : (x == k) = false := by simpa [hk] using hx
        rw [if_neg hx, if_neg hx, hne]
    · rw [List.filter_cons_of_pos (by simpa using hk), List.lookup_cons, List.lookup_cons, ih]
      by_cases hx : x = key
      · have hne : (x == k) = false := by simpa [hx] using Ne.symm hk
        rw [if_pos hx, if_pos hx, hne]
      · rw [if_neg hx, if_neg hx]

theorem lookup_erase_eq_some {t : List (α × β)} {key x : α} {v : β} (h : (erase t key).lookup x = some v) :
    x ≠ key ∧ t.lookup x = some v := by
  rw [lookup_erase] at h
  split at h
  · contradiction
  · next hne => exact ⟨hne, h⟩

theorem lookup_insert (t : List (α × β)) (key x : α) (v : β) :
    (insert t key v).lookup x = if x = key then some v else t.lookup x := by
  rw [insert, List.lookup_cons, lookup_erase]
  by_cases h : x = key
  · simp [h]
  · have hx : (x == key) = false := by simpa using h
    rw [if_neg h, if_neg h, hx]

end Handheld.Table
