import Handheld.Proofs.Raster.Drawing
import Mathlib.Data.List.Perm.Subperm
import Mathlib.Logic.Relation

/-!
Filling is exact: it changes the pixels that are connected to the seed through pixels of its colour. A round is paid for
by the pixels that are not collected yet.
-/
namespace Handheld.Raster

def Adjacent (p q : Point) : Prop :=
  (p.1 - q.1).natAbs + (p.2 - q.2).natAbs = 1

structure Next (r : Raster) (p q : Point) : Prop where
  contains : r.contains q
  adjacent : Adjacent p q
  colour : r.get q = r.get p

def Joined (r : Raster) : Point → Point → Prop :=
  Relation.ReflTransGen r.Next

variable {r : Raster} {p q : Point} {todo region : List Point} {seen : Array Bool}

theorem Joined.contains (h : r.Joined p q) (hp : r.contains p) : r.contains q := by
  cases h with
  | refl => exact hp
  | tail _ hnext => exact hnext.contains

theorem Joined.colour (h : r.Joined p q) : r.get q = r.get p := by
  induction h with
  | refl => rfl
  | tail _ hnext ih => exact hnext.colour.trans ih

theorem adjacent_iff {x y : Int} : Adjacent (x, y) q ↔ q ∈ [(x, y - 1), (x, y + 1), (x - 1, y), (x + 1, y)] := by
  obtain ⟨x', y'⟩ := q
  simp only [Adjacent, List.mem_cons, List.not_mem_nil, or_false, Prod.mk.injEq]
  omega

theorem pixelIndex_lt (h : r.contains p) : r.pixelIndex p < r.width * r.height := by
  simp only [contains, Bool.and_eq_true, decide_eq_true_eq] at h
  obtain ⟨⟨⟨hx, hwidth⟩, hy⟩, hheight⟩ := h
  have hrow : p.2.toNat + 1 ≤ r.height := by omega
  calc
    r.pixelIndex p
    _ < p.2.toNat * r.width + r.width := Nat.add_lt_add_left (by omega) _
    _ = r.width * (p.2.toNat + 1) := by rw [Nat.mul_succ, Nat.mul_comm]
    _ ≤ r.width * r.height := Nat.mul_le_mul_left _ hrow

theorem pixelIndex_inj (hp : r.contains p) (hq : r.contains q) (h : r.pixelIndex p = r.pixelIndex q) : p = q := by
  simp only [contains, Bool.and_eq_true, decide_eq_true_eq] at hp hq
  obtain ⟨hrow, hcol⟩ := eq_of_mul_add_eq (by omega) (by omega) h
  apply Prod.ext
  · omega
  · omega

theorem length_le_of_nodup (hnodup : region.Nodup) (hregion : ∀ q ∈ region, r.contains q) :
    region.length ≤ r.width * r.height := by
  have hplaces : (region.map r.pixelIndex).Nodup :=
    hnodup.map_on fun p hp q hq heq => pixelIndex_inj (hregion p hp) (hregion q hq) heq
  have hsubset : region.map r.pixelIndex ⊆ List.range (r.width * r.height) := by
    intro i hi
    obtain ⟨q, hq, rfl⟩ := List.mem_map.mp hi
    exact List.mem_range.mpr (pixelIndex_lt (hregion q hq))
  have hlength := (List.subperm_of_subset hplaces hsubset).length_le
  rwa [List.length_map, List.length_range] at hlength

/-- Where a fill is between two rounds: what is collected belongs to the region, and what belongs to it is collected or
will be found from what is listed. -/
structure Flooding (r : Raster) (p : Point) (todo : List Point) (seen : Array Bool) (region : List Point) : Prop where
  marks : seen.size = r.width * r.height
  seen : ∀ q, r.contains q → seen[r.pixelIndex q]? = some (decide (q ∈ region))
  nodup : region.Nodup
  inside : ∀ q ∈ region, r.contains q ∧ r.Joined p q
  pending : ∀ q ∈ todo, r.contains q → r.get q = r.get p → r.Joined p q
  seed : p ∈ region ∨ p ∈ todo
  around : ∀ q ∈ region, ∀ q', r.Next q q' → q' ∈ region ∨ q' ∈ todo

namespace Flooding

theorem start (r : Raster) (p : Point) : Flooding r p [p] (Array.replicate (r.width * r.height) false) [] where
  marks := Array.size_replicate
  seen q hq := by
    rw [Array.getElem?_replicate, if_pos (pixelIndex_lt hq)]
    simp
  nodup := List.nodup_nil
  inside q hq := (List.not_mem_nil hq).elim
  pending q hq _ _ := by
    rw [List.mem_singleton.mp hq]
    exact .refl
  seed := .inr List.mem_cons_self
  around q hq := (List.not_mem_nil hq).elim

theorem collect {x y : Int} (h : Flooding r p ((x, y) :: todo) seen region) (hcontains : r.contains (x, y))
    (hnew : (x, y) ∉ region) (hcolour : r.get (x, y) = r.get p)
    : Flooding r p ((x, y - 1) :: (x, y + 1) :: (x - 1, y) :: (x + 1, y) :: todo)
        (seen.setIfInBounds (r.pixelIndex (x, y)) true) ((x, y) :: region) := by
  have hjoined := h.pending _ List.mem_cons_self hcontains hcolour
  have hlisted : ∀ q, q ∈ (x, y - 1) :: (x, y + 1) :: (x - 1, y) :: (x + 1, y) :: todo
      ↔ Adjacent (x, y) q ∨ q ∈ todo := by
    intro q
    rw [adjacent_iff, ← List.mem_append]
    rfl
  constructor
  case marks => exact Array.size_setIfInBounds.trans h.marks
  case seen =>
    intro q hq
    rw [Array.getElem?_setIfInBounds, h.marks, h.seen q hq]
    split
    next hindex =>
      cases pixelIndex_inj hcontains hq hindex
      rw [if_pos (pixelIndex_lt hcontains), decide_eq_true List.mem_cons_self]
    next hindex =>
      have hne : q ≠ (x, y) := fun heq => hindex (by rw [heq])
      simp [hne]
  case nodup => exact List.nodup_cons.mpr ⟨hnew, h.nodup⟩
  case inside =>
    intro q hq
    rcases List.mem_cons.mp hq with rfl | hq
    · exact ⟨hcontains, hjoined⟩
    · exact h.inside q hq
  case pending =>
    intro q hq hon hsame
    rcases (hlisted q).mp hq with hadjacent | htodo
    · exact hjoined.tail ⟨hon, hadjacent, hsame.trans hcolour.symm⟩
    · exact h.pending q (List.mem_cons_of_mem _ htodo) hon hsame
  case seed =>
    rcases h.seed with hregion | hlist
    · exact .inl (List.mem_cons_of_mem _ hregion)
    · rcases List.mem_cons.mp hlist with rfl | htodo
      · exact .inl List.mem_cons_self
      · exact .inr ((hlisted p).mpr (.inr htodo))
  case around =>
    intro q hq q' hnext
    rcases List.mem_cons.mp hq with rfl | hq
    · exact .inr ((hlisted q').mpr (.inl hnext.adjacent))
    · rcases h.around q hq q' hnext with hregion | hlist
      · exact .inl (List.mem_cons_of_mem _ hregion)
      · rcases List.mem_cons.mp hlist with rfl | htodo
        · exact .inl List.mem_cons_self
        · exact .inr ((hlisted q').mpr (.inr htodo))

theorem pass (h : Flooding r p (q :: todo) seen region) (hp : r.contains p)
    (hold : ¬(r.contains q ∧ q ∉ region ∧ r.get q = r.get p))
    : Flooding r p todo seen region := by
  have hcollected : r.contains q → r.get q = r.get p → q ∈ region := by
    intro hcontains hcolour
    by_contra hnew
    exact hold ⟨hcontains, hnew, hcolour⟩
  refine { h with pending := ?_, seed := ?_, around := ?_ }
  · intro q' hq'
    exact h.pending q' (List.mem_cons_of_mem q hq')
  · rcases h.seed with hregion | hlist
    · exact .inl hregion
    · rcases List.mem_cons.mp hlist with rfl | htodo
      · exact .inl (hcollected hp rfl)
      · exact .inr htodo
  · intro q0 hq0 q' hnext
    rcases h.around q0 hq0 q' hnext with hregion | hlist
    · exact .inl hregion
    · rcases List.mem_cons.mp hlist with rfl | htodo
      · exact .inl (hcollected hnext.contains (hnext.colour.trans (h.inside q0 hq0).2.colour))
      · exact .inr htodo

theorem mem_iff (h : Flooding r p [] seen region) : q ∈ region ↔ r.Joined p q := by
  constructor
  · intro hq
    exact (h.inside q hq).2
  · intro hjoined
    induction hjoined with
    | refl => exact h.seed.resolve_right List.not_mem_nil
    | tail _ hnext ih => exact (h.around _ ih _ hnext).resolve_right List.not_mem_nil

theorem test_iff (h : Flooding r p todo seen region) :
    (r.contains q && !(seen[r.pixelIndex q]?.getD true) && r.get q == r.get p) = true
      ↔ r.contains q ∧ q ∉ region ∧ r.get q = r.get p := by
  cases hq : r.contains q with
  | false => simp
  | true => simp [h.seen q hq]

theorem exists_region (h : Flooding r p todo seen region) (hp : r.contains p) {fuel : Nat}
    (hfuel : todo.length + 4 * (r.width * r.height) ≤ fuel + 4 * region.length)
    : ∃ points : List Point, points.Nodup ∧ (∀ q, q ∈ points ↔ r.Joined p q)
        ∧ ∀ more, flood r (r.get p) (fuel + more) todo seen region = points := by
  induction fuel generalizing todo seen region with
  | zero =>
    have hplaces := length_le_of_nodup h.nodup fun q hq => (h.inside q hq).1
    obtain rfl : todo = [] := List.eq_nil_of_length_eq_zero (by omega)
    refine ⟨region, h.nodup, fun q => h.mem_iff, fun more => ?_⟩
    cases more <;> rfl
  | succ fuel ih =>
    cases todo with
    | nil =>
      refine ⟨region, h.nodup, fun q => h.mem_iff, fun more => ?_⟩
      rw [Nat.add_right_comm]
      rfl
    | cons q todo =>
      obtain ⟨x, y⟩ := q
      rw [List.length_cons] at hfuel
      by_cases htest : r.contains (x, y) ∧ (x, y) ∉ region ∧ r.get (x, y) = r.get p
      · have hround := h.collect htest.1 htest.2.1 htest.2.2
        obtain ⟨points, hnodup, hmem, hpoints⟩ := ih hround (by simp only [List.length_cons]; omega)
        refine ⟨points, hnodup, hmem, fun more => ?_⟩
        rw [Nat.add_right_comm, flood, if_pos (h.test_iff.mpr htest)]
        exact hpoints more
      · obtain ⟨points, hnodup, hmem, hpoints⟩ := ih (h.pass hp htest) (by omega)
        refine ⟨points, hnodup, hmem, fun more => ?_⟩
        rw [Nat.add_right_comm, flood, if_neg fun hround => htest (h.test_iff.mp hround)]
        exact hpoints more

end Flooding

theorem fill_of_not_contains (h : r.contains p = false) (mode : Mode) : r.fill p mode = r := by
  rw [fill, regionOf, h]
  exact draw_eq_plots List.nodup_nil mode

/--
A fill plots the pixels that are connected to the seed, each of them once, and comes to an end: further rounds find
nothing. Off the raster it does nothing.
-/
theorem fill_exact (r : Raster) (hbits : size r.width r.height ≤ r.bits.size) (p : Point) (mode : Mode) :
    (r.contains p = true →
      ∃ points : List Point, points.Nodup ∧ (∀ q, q ∈ points ↔ r.Joined p q)
        ∧ (∀ more, flood r (r.get p) (4 * (r.width * r.height) + 2 + more) [p]
            (Array.replicate (r.width * r.height) false) [] = points)
        ∧ r.fill p mode = points.foldl (·.plot · mode) r
        ∧ ∀ q, (r.fill p mode).get q = if q ∈ points then mode.on (r.get q) else r.get q)
    ∧ (r.contains p = false → r.fill p mode = r) := by
  refine ⟨?_, fun hp => fill_of_not_contains hp mode⟩
  intro hp
  have hfuel : [p].length + 4 * (r.width * r.height) ≤ 4 * (r.width * r.height) + 2 + 4 * ([] : List Point).length := by
    simp only [List.length_cons, List.length_nil]
    omega
  obtain ⟨points, hnodup, hmem, hflood⟩ := (Flooding.start r p).exists_region hp hfuel
  have hfill : r.fill p mode = points.foldl (·.plot · mode) r := by
    rw [fill, regionOf, if_pos hp, ← draw_eq_plots hnodup, ← hflood 0, Nat.add_zero]
  have hcontains : ∀ q ∈ points, r.contains q := fun q hq => ((hmem q).mp hq).contains hp
  refine ⟨points, hnodup, hmem, hflood, hfill, fun q => ?_⟩
  rw [hfill, get_plots hnodup hbits hcontains]

def panes : Raster where
  width := 10
  height := 4
  bits := #[0xFF, 0xEA, 0x81, 0x40, 0x81, 0x40, 0xFF, 0xC0, 0x55]

theorem fill_exact_panes :
    size panes.width panes.height ≤ panes.bits.size ∧ panes.contains (2, 1) = true
      ∧ (∃ points : List Point, points.Nodup ∧ (∀ q, q ∈ points ↔ panes.Joined (2, 1) q)
        ∧ (∀ more, flood panes (panes.get (2, 1)) (4 * (panes.width * panes.height) + 2 + more) [(2, 1)]
            (Array.replicate (panes.width * panes.height) false) [] = points)
        ∧ panes.fill (2, 1) .invert = points.foldl (·.plot · .invert) panes
        ∧ ∀ q, (panes.fill (2, 1) .invert).get q
            = if q ∈ points then Mode.invert.on (panes.get q) else panes.get q)
      ∧ panes.contains (10, 1) = false ∧ panes.fill (10, 1) .invert = panes := by
  have hbits : size panes.width panes.height ≤ panes.bits.size := by decide
  have hinside : panes.contains (2, 1) = true := by decide
  have houtside : panes.contains (10, 1) = false := by decide
  exact ⟨hbits, hinside, (fill_exact panes hbits (2, 1) .invert).1 hinside, houtside,
    (fill_exact panes hbits (10, 1) .invert).2 houtside⟩

end Handheld.Raster
