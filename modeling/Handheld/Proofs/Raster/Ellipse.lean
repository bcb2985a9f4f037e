import Handheld.Proofs.Raster.Drawing
import Handheld.Proofs.Raster.Words

/-!
Ellipses are exact. A filled ellipse has the pixels that satisfy its inequality, and its outline those of them that are
farthest from the centre in their row or column. All numbers fit into their words.
-/
namespace Handheld.Raster

variable {x y : Int} {α : Type}

section Search

variable {holds : Nat → Bool} {low high n : Nat}

theorem largest_le (h : low ≤ high) : largest holds low high ≤ high := by
  fun_induction largest holds low high with
  | case1 low high hlt mid hmid ih => exact ih (by omega)
  | case2 low high hlt mid hmid ih =>
    have hle := ih (by omega)
    omega
  | case3 low high hge => exact h

theorem le_largest_iff (hlow : holds low = true) (hdown : ∀ m n, m ≤ n → holds n = true → holds m = true)
    (hn : n ≤ high)
    : n ≤ largest holds low high ↔ holds n = true := by
  fun_induction largest holds low high with
  | case1 low high hlt mid hmid ih => exact ih hmid hn
  | case2 low high hlt mid hmid ih =>
    rcases Nat.lt_or_ge n mid with hbelow | habove
    · exact ih hlow (by omega)
    · -- the property is lost from the middle on
      have hlost : ¬holds n = true := fun h => hmid (hdown mid n habove h)
      have hle : largest holds low (mid - 1) ≤ mid - 1 := largest_le (by omega)
      rw [iff_false_right hlost]
      omega
  | case3 low high hge =>
    constructor
    · intro hle
      exact hdown n low hle hlow
    · intro _
      omega

end Search

structure InEllipse (cx cy : Int) (rx ry : Nat) (p : Point) : Prop where
  column : (p.1 - cx).natAbs ≤ rx
  row : (p.2 - cy).natAbs ≤ ry
  inside : (p.1 - cx) * (p.1 - cx) * (ry * ry) + (p.2 - cy) * (p.2 - cy) * (rx * rx) ≤ rx * rx * (ry * ry)

/-- The points of an ellipse that are farthest from its centre in their row or in their column. -/
structure OnRim (cx cy : Int) (rx ry : Nat) (p : Point) : Prop where
  inEllipse : InEllipse cx cy rx ry p
  farthest : (∀ x, InEllipse cx cy rx ry (x, p.2) → (x - cx).natAbs ≤ (p.1 - cx).natAbs)
    ∨ (∀ y, InEllipse cx cy rx ry (p.1, y) → (y - cy).natAbs ≤ (p.2 - cy).natAbs)

section Span

variable {cx cy : Int} {rx ry dx dy : Nat} {p : Point}

theorem le_ellipseSpan_iff (h : dy ≤ ry) :
    dx ≤ ellipseSpan rx ry dy ↔ dx ≤ rx ∧ dx * dx * (ry * ry) + dy * dy * (rx * rx) ≤ rx * rx * (ry * ry) := by
  unfold ellipseSpan
  split
  next hzero =>
    obtain rfl : ry = 0 := by simpa using hzero
    obtain rfl : dy = 0 := by omega
    simp
  next =>
    rw [if_neg (by omega)]
    have hcentre : dy * dy * (rx * rx) ≤ rx * rx * (ry * ry) := by
      rw [Nat.mul_comm (rx * rx)]
      exact Nat.mul_le_mul_right _ (Nat.mul_le_mul h h)
    have hdown (m n : Nat) (hle : m ≤ n) : m * m * (ry * ry) ≤ n * n * (ry * ry) :=
      Nat.mul_le_mul_right _ (Nat.mul_le_mul hle hle)
    rcases Nat.lt_or_ge rx dx with hlt | hge
    · have hle : largest (fun dx => dx * dx * (ry * ry) + dy * dy * (rx * rx) ≤ rx * rx * (ry * ry)) 0 rx ≤ rx :=
        largest_le (Nat.zero_le rx)
      omega
    · rw [le_largest_iff (by simpa using hcentre) ?_ hge, decide_eq_true_eq]
      · simp only [hge, true_and]
      · intro m n hle hn
        rw [decide_eq_true_eq] at hn ⊢
        exact Nat.le_trans (Nat.add_le_add_right (hdown m n hle) _) hn

theorem ellipseSpan_le (rx : Nat) (h : dy ≤ ry) : ellipseSpan rx ry dy ≤ rx :=
  ((le_ellipseSpan_iff h).mp (Nat.le_refl _)).1

theorem inEllipse_iff_row :
    InEllipse cx cy rx ry p
      ↔ (p.2 - cy).natAbs ≤ ry ∧ (p.1 - cx).natAbs ≤ ellipseSpan rx ry (p.2 - cy).natAbs := by
  have hcast : (p.1 - cx).natAbs * (p.1 - cx).natAbs * (ry * ry) + (p.2 - cy).natAbs * (p.2 - cy).natAbs * (rx * rx)
        ≤ rx * rx * (ry * ry)
      ↔ (p.1 - cx) * (p.1 - cx) * (ry * ry) + (p.2 - cy) * (p.2 - cy) * (rx * rx) ≤ rx * rx * (ry * ry) := by
    rw [← Int.natAbs_mul_self (a := p.1 - cx), ← Int.natAbs_mul_self (a := p.2 - cy)]
    norm_cast
  constructor
  · rintro ⟨hcolumn, hrow, hinside⟩
    exact ⟨hrow, (le_ellipseSpan_iff hrow).mpr ⟨hcolumn, hcast.mpr hinside⟩⟩
  · rintro ⟨hrow, hspan⟩
    obtain ⟨hcolumn, hinside⟩ := (le_ellipseSpan_iff hrow).mp hspan
    exact ⟨hcolumn, hrow, hcast.mp hinside⟩

theorem InEllipse.swap (h : InEllipse cx cy rx ry (x, y)) : InEllipse cy cx ry rx (y, x) := by
  refine ⟨h.row, h.column, ?_⟩
  have hinside := h.inside
  rw [Int.add_comm, Int.mul_comm ((ry : Int) * ry)]
  exact hinside

theorem inEllipse_iff_column :
    InEllipse cx cy rx ry p
      ↔ (p.1 - cx).natAbs ≤ rx ∧ (p.2 - cy).natAbs ≤ ellipseSpan ry rx (p.1 - cx).natAbs :=
  Iff.trans ⟨.swap, .swap⟩ inEllipse_iff_row

theorem farthest_iff (h : InEllipse cx cy rx ry (x, y)) :
    (∀ x', InEllipse cx cy rx ry (x', y) → (x' - cx).natAbs ≤ (x - cx).natAbs)
      ↔ (x - cx).natAbs = ellipseSpan rx ry (y - cy).natAbs := by
  obtain ⟨hrow, hspan⟩ := inEllipse_iff_row.mp h
  constructor
  · intro hfarthest
    have hend : (cx + ellipseSpan rx ry (y - cy).natAbs - cx).natAbs = ellipseSpan rx ry (y - cy).natAbs := by omega
    have hle := hfarthest (cx + ellipseSpan rx ry (y - cy).natAbs) (inEllipse_iff_row.mpr ⟨hrow, hend.le⟩)
    exact Nat.le_antisymm hspan (hend.symm.trans_le hle)
  · intro hend x' hx'
    have hle := (inEllipse_iff_row.mp hx').2
    exact hle.trans_eq hend.symm

theorem onRim_iff :
    OnRim cx cy rx ry p
      ↔ ((p.2 - cy).natAbs ≤ ry ∧ (p.1 - cx).natAbs = ellipseSpan rx ry (p.2 - cy).natAbs)
        ∨ ((p.1 - cx).natAbs ≤ rx ∧ (p.2 - cy).natAbs = ellipseSpan ry rx (p.1 - cx).natAbs) := by
  constructor
  · rintro ⟨hin, hrow | hcolumn⟩
    · exact .inl ⟨hin.row, (farthest_iff hin).mp hrow⟩
    · refine .inr ⟨hin.column, (farthest_iff hin.swap).mp ?_⟩
      intro y hy
      exact hcolumn y hy.swap
  · rintro (⟨hrow, hspan⟩ | ⟨hcolumn, hspan⟩)
    · have hin := inEllipse_iff_row.mpr ⟨hrow, hspan.le⟩
      exact ⟨hin, .inl ((farthest_iff hin).mpr hspan)⟩
    · have hin := inEllipse_iff_column.mpr ⟨hcolumn, hspan.le⟩
      refine ⟨hin, .inr ?_⟩
      intro y hy
      exact (farthest_iff hin.swap).mpr hspan y hy.swap

end Span

section Points

variable {r : Raster} {cx cy : Int} {rx ry : Nat} {q : Point}

theorem mem_diskPoints : q ∈ r.diskPoints cx cy rx ry ↔ r.contains q = true ∧ InEllipse cx cy rx ry q := by
  rw [contains_iff, inEllipse_iff_row, diskPoints, List.mem_flatMap]
  simp only [List.mem_map, mem_visible]
  constructor
  · rintro ⟨y, ⟨hrow, hheight⟩, x, ⟨hspan, hwidth⟩, rfl⟩
    dsimp only
    omega
  · rintro ⟨⟨hx, hwidth, hy, hheight⟩, hrow, hspan⟩
    exact ⟨q.2, by omega, q.1, by omega, rfl⟩

theorem mem_ringPoints (h : r.contains q = true) : q ∈ r.ringPoints cx cy rx ry ↔ OnRim cx cy rx ry q := by
  rw [contains_iff] at h
  rw [onRim_iff, ringPoints, List.mem_append, List.mem_flatMap, List.mem_flatMap]
  simp only [mem_visible, List.mem_cons, List.not_mem_nil, or_false, Prod.ext_iff]
  apply or_congr
  · constructor
    · rintro ⟨y, ⟨hrow, -⟩, hend⟩
      obtain rfl : q.2 = y := by omega
      omega
    · rintro ⟨hrow, hspan⟩
      exact ⟨q.2, by omega, by omega⟩
  · constructor
    · rintro ⟨x, ⟨hcolumn, -⟩, hend⟩
      obtain rfl : q.1 = x := by omega
      omega
    · rintro ⟨hcolumn, hspan⟩
      exact ⟨q.1, by omega, by omega⟩

def EllipseCovers (cx cy rx ry : Int) (fill : Bool) : Point → Prop :=
  if fill then InEllipse cx cy rx.natAbs ry.natAbs else OnRim cx cy rx.natAbs ry.natAbs

theorem appliedOnce_ellipse (hbits : size r.width r.height ≤ r.bits.size) (cx cy rx ry : Int) (fill : Bool)
    (mode : Mode)
    : AppliedOnce r mode (EllipseCovers cx cy rx ry fill) (r.ellipse cx cy rx ry fill mode) := by
  apply appliedOnce_draw hbits
  intro q hq
  cases fill with
  | false => exact mem_ringPoints hq
  | true => exact mem_diskPoints.trans (and_iff_right hq)

end Points

section Words

theorem mapM_eq_some {β : Type} {f : α → Option β} {g : α → β} {xs : List α} (h : ∀ x ∈ xs, f x = some (g x)) :
    xs.mapM f = some (xs.map g) := by
  induction xs with
  | nil => rfl
  | cons x xs ih =>
    rw [List.mapM_cons, h x List.mem_cons_self, ih fun x' hx' => h x' (List.mem_cons_of_mem x hx')]
    rfl

theorem product?_bind {a b c d : Int} {f : Int → Option α} (ha : a.natAbs ≤ 0x80000000)
    (hb : b.natAbs ≤ 0x80000000) (hc : c.natAbs ≤ 0x80000000) (hd : d.natAbs ≤ 0x80000000)
    : (product? a b c d >>= f) = f (a * b * c * d) := by
  have hab := Nat.mul_le_mul ha hb
  have habc := Nat.mul_le_mul hab hc
  have habcd := Nat.mul_le_mul habc hd
  rw [← Int.natAbs_mul] at hab
  rw [← Int.natAbs_mul, ← Int.natAbs_mul] at habc
  rw [← Int.natAbs_mul, ← Int.natAbs_mul, ← Int.natAbs_mul] at habcd
  rw [product?, within_bind (by omega), within_bind (by omega), within_bind (by omega)]

theorem search?_eq {holds : Nat → Bool} {ry : Nat} {limit : Int} {rounds low high : Nat} (hry : ry ≤ 0x80000000)
    (hhigh : high ≤ 0x80000000) (hrounds : high - low < rounds)
    (hholds : ∀ n : Nat, n ≤ high → (holds n = true ↔ (n * n * ry * ry : Int) ≤ limit))
    : search? ry limit rounds low high = some (largest holds low high : Int) := by
  induction rounds generalizing low high with
  | zero => omega
  | succ rounds ih =>
    rw [search?, largest]
    by_cases hlt : low < high
    · have hmid : ((low : Int) + high + 1).tdiv 2 = ((low + high + 1) / 2 : Nat) := by
        rw [Int.tdiv_eq_ediv_of_nonneg (by omega)]
        omega
      rw [if_pos (by omega), if_pos hlt, within_bind (by omega), within_bind (by omega), hmid, within_bind (by omega),
        product?_bind (by omega) (by omega) (by omega) (by omega)]
      have hmiddle := hholds ((low + high + 1) / 2) (by omega)
      by_cases hholdsMid : holds ((low + high + 1) / 2) = true
      · rw [if_pos (hmiddle.mp hholdsMid), if_pos hholdsMid]
        exact ih hhigh (by omega) hholds
      · have hless : (((low + high + 1) / 2 : Nat) : Int) - 1 = ((low + high + 1) / 2 - 1 : Nat) := by omega
        rw [if_neg fun h => hholdsMid (hmiddle.mpr h), if_neg hholdsMid, within_bind (by omega), hless]
        exact ih (by omega) (by omega) fun n hn => hholds n (by omega)
    · rw [if_neg (by omega), if_neg hlt]
      rfl

theorem span?_bind {rx ry : Nat} {dy : Int} {f : Int → Option α} (hrx : rx ≤ 0x80000000)
    (hry : ry ≤ 0x80000000) (hdy : dy.natAbs ≤ ry)
    : (span? rx ry dy >>= f) = f (ellipseSpan rx ry dy.natAbs) := by
  have hspan : span? rx ry dy = some (ellipseSpan rx ry dy.natAbs : Int) := by
    unfold span? ellipseSpan
    by_cases hzero : ry = 0
    · rw [if_pos (by simpa using hzero), if_pos (by simpa using hzero)]
      rfl
    · have hwhole := Nat.mul_le_mul (Nat.mul_le_mul hrx hrx) (Nat.mul_le_mul hry hry)
      have hpart := Nat.mul_le_mul_right (rx * rx) (Nat.mul_le_mul hdy hdy)
      rw [Nat.mul_comm (ry * ry)] at hpart
      have hlimit : (rx * rx * ry * ry : Int) - dy * dy * rx * rx
          = (rx * rx * (ry * ry) : Nat) - (dy.natAbs * dy.natAbs * (rx * rx) : Nat) := by
        rw [← Int.natAbs_mul_self (a := dy)]
        simp only [Int.natCast_mul, Int.mul_assoc]
      rw [if_neg (by simpa using hzero), if_neg (by simpa using hzero),
        product?_bind (by omega) (by omega) (by omega) (by omega),
        product?_bind (by omega) (by omega) (by omega) (by omega), hlimit, within_bind (by omega), if_neg (by omega),
        if_neg (by omega)]
      apply search?_eq hry hrx (by omega)
      intro n _
      have hsquare : (n * n * ry * ry : Int) = (n * n * (ry * ry) : Nat) := by
        simp only [Int.natCast_mul, Int.mul_assoc]
      rw [decide_eq_true_eq, hsquare]
      omega
  rw [hspan]
  rfl

theorem ends?_bind {centre span : Int} {f : Int × Int → Option α}
    (hlow : -0x8000000000000000 ≤ centre - span ∧ centre - span < 0x8000000000000000)
    (hhigh : -0x8000000000000000 ≤ centre + span ∧ centre + span < 0x8000000000000000)
    : (ends? centre span >>= f) = f (centre - span, centre + span) := by
  rw [ends?, within_bind hlow, within_bind hhigh]
  rfl

theorem visible?_bind {low high : Int} {length : Nat} {f : List Int → Option α} (h : length < 0x10000) :
    (visible? (low, high) length >>= f) = f (visible low high length) := by
  rw [visible?, within_bind (by omega)]
  rfl

def ellipseRow (r : Raster) (cx cy : Int) (rx ry : Nat) (fill : Bool) (y : Int) : List Point :=
  let span := ellipseSpan rx ry (y - cy).natAbs
  if fill then (visible (cx - span) (cx + span) r.width).map (·, y) else [(cx - span, y), (cx + span, y)]

def ellipseColumn (cx cy : Int) (rx ry : Nat) (x : Int) : List Point :=
  let span := ellipseSpan ry rx (x - cx).natAbs
  [(x, cy - span), (x, cy + span)]

variable {r : Raster}

theorem ellipseRow?_eq (hr : r.Formed) (cx cy : Int32) {rx ry : Nat} (hrx : rx ≤ 0x80000000) (hry : ry ≤ 0x80000000)
    (hy : (y - cy.toInt).natAbs ≤ ry) (fill : Bool)
    : ellipseRow? r cx.toInt cy.toInt rx ry fill y
      = some ((ellipseRow r cx.toInt cy.toInt rx ry fill y).map clampPoint) := by
  have hspan := ellipseSpan_le rx hy
  have hlow := cx.le_toInt
  have hhigh := cx.toInt_lt
  rw [ellipseRow?, within_bind (by omega), span?_bind hrx hry hy, ends?_bind (by omega) (by omega)]
  cases fill with
  | false => rfl
  | true =>
    rw [if_pos rfl, visible?_bind hr.width, ellipseRow, if_pos rfl, List.map_map]
    rfl

theorem ellipseColumn?_eq (cx cy : Int32) {rx ry : Nat} (hrx : rx ≤ 0x80000000) (hry : ry ≤ 0x80000000)
    (hx : (x - cx.toInt).natAbs ≤ rx)
    : ellipseColumn? cx.toInt cy.toInt rx ry x
      = some ((ellipseColumn cx.toInt cy.toInt rx ry x).map clampPoint) := by
  have hspan := ellipseSpan_le ry hx
  have hlow := cy.le_toInt
  have hhigh := cy.toInt_lt
  rw [ellipseColumn?, within_bind (by omega), span?_bind hry hrx hx, ends?_bind (by omega) (by omega)]
  rfl

theorem ellipsePoints?_eq (hr : r.Formed) (cx cy rx ry : Int32) (fill : Bool) :
    ellipsePoints? r cx.toInt cy.toInt rx.toInt ry.toInt fill
      = some ((if fill then r.diskPoints cx.toInt cy.toInt rx.toInt.natAbs ry.toInt.natAbs
          else r.ringPoints cx.toInt cy.toInt rx.toInt.natAbs ry.toInt.natAbs).map clampPoint) := by
  have hcx := cx.le_toInt
  have hcx' := cx.toInt_lt
  have hcy := cy.le_toInt
  have hcy' := cy.toInt_lt
  have hrx : rx.toInt.natAbs ≤ 0x80000000 := by
    have hlow := rx.le_toInt
    have hhigh := rx.toInt_lt
    omega
  have hry : ry.toInt.natAbs ≤ 0x80000000 := by
    have hlow := ry.le_toInt
    have hhigh := ry.toInt_lt
    omega
  unfold ellipsePoints? absInt
  generalize rx.toInt.natAbs = rx at hrx ⊢
  generalize ry.toInt.natAbs = ry at hry ⊢
  have hrows : ∀ y ∈ visible (cy.toInt - ry) (cy.toInt + ry) r.height,
      ellipseRow? r cx.toInt cy.toInt rx ry fill y
        = some ((ellipseRow r cx.toInt cy.toInt rx ry fill y).map clampPoint) := by
    intro y hy
    have hrow := (mem_visible.mp hy).1
    exact ellipseRow?_eq hr cx cy hrx hry (by omega) fill
  have hcolumns : ∀ x ∈ visible (cx.toInt - rx) (cx.toInt + rx) r.width,
      ellipseColumn? cx.toInt cy.toInt rx ry x
        = some ((ellipseColumn cx.toInt cy.toInt rx ry x).map clampPoint) := by
    intro x hx
    have hcolumn := (mem_visible.mp hx).1
    exact ellipseColumn?_eq cx cy hrx hry (by omega)
  rw [within_bind (by omega), within_bind (by omega), ends?_bind (by omega) (by omega), visible?_bind hr.height,
    mapM_eq_some hrows, Option.bind_eq_bind, Option.bind_some, ← List.flatMap_def, ← List.map_flatMap]
  cases fill with
  | true => rfl
  | false =>
    rw [if_neg (by decide), if_neg (by decide), ends?_bind (by omega) (by omega), visible?_bind hr.width,
      mapM_eq_some hcolumns, Option.bind_some, ← List.flatMap_def, ← List.map_flatMap, ← List.map_append]
    rfl

theorem mem_map_clampPoint (hr : r.Formed) {points : List Point} {q : Point} (hq : r.contains q = true) :
    q ∈ points.map clampPoint ↔ q ∈ points := by
  have hwidth := hr.width
  have hheight := hr.height
  rw [contains_iff] at hq
  have hclamp (p : Point) : clampPoint p = q ↔ p = q := by
    simp only [clampPoint, clamp, Prod.ext_iff]
    omega
  simp only [List.mem_map, hclamp, exists_eq_right]

theorem ellipse?_eq (hr : r.Formed) (cx cy rx ry : Int32) (fill : Bool) (mode : Mode) :
    ellipse? r cx.toInt cy.toInt rx.toInt ry.toInt fill mode
      = some (r.ellipse cx.toInt cy.toInt rx.toInt ry.toInt fill mode) := by
  rw [ellipse?, ellipsePoints?_eq hr, Option.map_some]
  exact congrArg some (draw_congr (fun _ hq => mem_map_clampPoint hr hq) mode)

end Words

/--
A filled ellipse has the pixels that satisfy its inequality, and each of them is drawn once; the pixels of its outline
are among them. In words of 64 and 128 bits no number that is computed on the way overflows.
-/
theorem ellipse_exact (r : Raster) (hr : r.Formed) (cx cy rx ry : Int32) (mode : Mode) :
    AppliedOnce r mode (InEllipse cx.toInt cy.toInt rx.toInt.natAbs ry.toInt.natAbs)
        (r.ellipse cx.toInt cy.toInt rx.toInt ry.toInt true mode)
      ∧ AppliedOnce r mode (OnRim cx.toInt cy.toInt rx.toInt.natAbs ry.toInt.natAbs)
        (r.ellipse cx.toInt cy.toInt rx.toInt ry.toInt false mode)
      ∧ (∀ q, OnRim cx.toInt cy.toInt rx.toInt.natAbs ry.toInt.natAbs q →
        InEllipse cx.toInt cy.toInt rx.toInt.natAbs ry.toInt.natAbs q)
      ∧ ∀ fill, ellipse? r cx.toInt cy.toInt rx.toInt ry.toInt fill mode
        = some (r.ellipse cx.toInt cy.toInt rx.toInt ry.toInt fill mode) := by
  refine ⟨?_, ?_, fun _ hrim => hrim.inEllipse, fun fill => ?_⟩
  · exact appliedOnce_ellipse hr.bits _ _ _ _ true mode
  · exact appliedOnce_ellipse hr.bits _ _ _ _ false mode
  · exact ellipse?_eq hr cx cy rx ry fill mode

def card : Raster where
  width := 10
  height := 6
  bits := Array.replicate 12 0x55

theorem ellipse_exact_card :
    card.Formed
      ∧ AppliedOnce card .invert (InEllipse 4 2 3 0x80000000) (card.ellipse 4 2 (-3) (-0x80000000) true .invert)
      ∧ AppliedOnce card .invert (OnRim 4 2 3 0x80000000) (card.ellipse 4 2 (-3) (-0x80000000) false .invert)
      ∧ (∀ q, OnRim 4 2 3 0x80000000 q → InEllipse 4 2 3 0x80000000 q)
      ∧ ∀ fill, ellipse? card 4 2 (-3) (-0x80000000) fill .invert
        = some (card.ellipse 4 2 (-3) (-0x80000000) fill .invert) := by
  have hformed : card.Formed := ⟨by decide, by decide, by decide⟩
  exact ⟨hformed, ellipse_exact card hformed 4 2 (-3) (-0x80000000) .invert⟩

end Handheld.Raster
