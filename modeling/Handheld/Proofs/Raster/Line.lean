import Handheld.Proofs.Raster.Words
import Mathlib.Data.List.Chain

/-!
Lines are straight: a segment leads from its start to its end, never off the true line by more than half a pixel. That
the walk along it ends rests on this.
-/
namespace Handheld.Raster

section Toward

def toward (start stop : Int) (n : Nat) : Int :=
  start + n * if start < stop then 1 else -1

def Nears (stop : Int) (n : Nat) (p q : Int) : Prop :=
  (q - p).natAbs = n ∧ (stop - q).natAbs + n = (stop - p).natAbs

variable {start stop : Int} {n : Nat}

theorem toward_zero (start stop : Int) : toward start stop 0 = start := by
  simp [toward]

theorem toward_succ : toward start stop (n + 1) = toward start stop n + if start < stop then 1 else -1 := by
  unfold toward
  split <;> omega

theorem toward_eq_stop_iff : toward start stop n = stop ↔ n = (stop - start).natAbs := by
  unfold toward
  split <;> omega

theorem natAbs_toward_sub (start stop : Int) (n : Nat) : (toward start stop n - start).natAbs = n := by
  unfold toward
  split <;> omega

theorem nears_toward {m : Nat} (hm : n ≤ m) (h : m ≤ (stop - start).natAbs) :
    Nears stop (m - n) (toward start stop n) (toward start stop m) := by
  unfold Nears toward
  split <;> omega

end Toward

section Tracks

variable {a b k i j : Nat}

def errorAt (a b i j : Nat) : Int :=
  a * (j + 1) - b * (i + 1)

def nextX (a b i j : Nat) : Nat :=
  if 2 * errorAt a b i j ≥ -b then i + 1 else i

def nextY (a b i j : Nat) : Nat :=
  if 2 * errorAt a b i j ≤ a then j + 1 else j

structure Tracks (a b k i j : Nat) : Prop where
  alongX : b ≤ a → i = k
  alongY : a ≤ b → j = k
  near : 2 * ((i : Int) * b - j * a).natAbs ≤ max a b

theorem errorAt_eq (a b i j : Nat) : errorAt a b i j = a - b - (i * b - j * a) := by
  rw [errorAt, Int.mul_add, Int.mul_add, Int.mul_comm (j : Int), Int.mul_comm (i : Int)]
  omega

theorem errorAt_start (a b : Nat) : errorAt a b 0 0 = a - b := by
  simp [errorAt]

theorem nextX_le (a b i j : Nat) : i ≤ nextX a b i j ∧ nextX a b i j ≤ i + 1 := by
  unfold nextX
  split <;> omega

theorem nextY_le (a b i j : Nat) : j ≤ nextY a b i j ∧ nextY a b i j ≤ j + 1 := by
  unfold nextY
  split <;> omega

theorem Tracks.start (a b : Nat) : Tracks a b 0 0 0 := by
  constructor
  · intro _
    rfl
  · intro _
    rfl
  · simp

theorem mul_nextX (a b i j : Nat) :
    (nextX a b i j : Int) * b = i * b + if 2 * errorAt a b i j ≥ -b then (b : Int) else 0 := by
  unfold nextX
  split
  · rw [Int.natCast_add_one, Int.add_mul, Int.one_mul]
  · rw [Int.add_zero]

theorem mul_nextY (a b i j : Nat) :
    (nextY a b i j : Int) * a = j * a + if 2 * errorAt a b i j ≤ a then (a : Int) else 0 := by
  unfold nextY
  split
  · rw [Int.natCast_add_one, Int.add_mul, Int.one_mul]
  · rw [Int.add_zero]

section

variable (h : Tracks a b k i j)

include h

theorem Tracks.next : Tracks a b (k + 1) (nextX a b i j) (nextY a b i j) := by
  have hnear := h.near
  have herror := errorAt_eq a b i j
  constructor
  · intro hle
    rw [nextX, if_pos (by omega), h.alongX hle]
  · intro hle
    rw [nextY, if_pos (by omega), h.alongY hle]
  · rw [mul_nextX, mul_nextY]
    split <;> split <;> omega

theorem Tracks.errorAt_bound (hx : a < 0x20000000) (hy : b < 0x20000000) :
    -0x30000000 < errorAt a b i j ∧ errorAt a b i j < 0x30000000 := by
  have hnear := h.near
  rw [errorAt_eq]
  omega

theorem Tracks.swap : Tracks b a k j i := by
  have hnear := h.near
  exact ⟨h.alongY, h.alongX, by omega⟩

theorem Tracks.le_of_le (hside : b ≤ a) (hk : k ≤ a) : i ≤ a ∧ j ≤ b := by
  have hnear := h.near
  obtain rfl := h.alongX hside
  refine ⟨hk, ?_⟩
  by_contra hlt
  rcases Nat.eq_zero_or_pos a with ha | ha
  · have hj := h.alongY (by omega)
    omega
  · -- with a step too many along the shorter side the walk would be off by the whole of the longer one
    have hrow : ((b + 1) * a : Int) ≤ j * a := Int.mul_le_mul_of_nonneg_right (by omega) (by omega)
    have hcol : (i * b : Int) ≤ a * b := Int.mul_le_mul_of_nonneg_right (by omega) (by omega)
    rw [Int.add_mul, Int.mul_comm (b : Int)] at hrow
    omega

theorem Tracks.le (hk : k ≤ max a b) : i ≤ a ∧ j ≤ b := by
  rcases Nat.le_total b a with hside | hside
  · exact h.le_of_le hside (by omega)
  · exact (h.swap.le_of_le hside (by omega)).symm

end

theorem Tracks.eq_of_le (h : Tracks a b a i j) (hside : b ≤ a) : i = a ∧ j = b := by
  have hnear := h.near
  have hj := (h.le_of_le hside (Nat.le_refl a)).2
  obtain rfl := h.alongX hside
  refine ⟨rfl, ?_⟩
  by_contra hne
  have hrow : ((j + 1) * i : Int) ≤ b * i := Int.mul_le_mul_of_nonneg_right (by omega) (by omega)
  rw [Int.add_mul, Int.mul_comm (b : Int)] at hrow
  omega

theorem Tracks.end_iff (h : Tracks a b k i j) (hk : k ≤ max a b) : (i = a ∧ j = b) ↔ k = max a b := by
  constructor
  · rintro ⟨rfl, rfl⟩
    rcases Nat.le_total j i with hside | hside
    · have hi := h.alongX hside
      omega
    · have hj := h.alongY hside
      omega
  · rintro rfl
    rcases Nat.le_total b a with hside | hside
    · rw [Nat.max_eq_left hside] at h
      exact h.eq_of_le hside
    · rw [Nat.max_eq_right hside] at h
      exact (h.swap.eq_of_le hside).symm

end Tracks

section Walk

variable {x0 y0 x1 y1 : Int} {a b i j k : Nat}

theorem errorAt_next (a b i j : Nat) :
    errorAt a b (nextX a b i j) (nextY a b i j)
      = errorAt a b i j + (if 2 * errorAt a b i j ≥ -b then -(b : Int) else 0)
        + (if 2 * errorAt a b i j ≤ a then (a : Int) else 0) := by
  rw [errorAt_eq a b (nextX a b i j), mul_nextX, mul_nextY, errorAt_eq a b i j]
  split <;> split <;> omega

theorem toward_nextX (start stop : Int) (a b i j : Nat) :
    toward start stop (nextX a b i j)
      = if 2 * errorAt a b i j ≥ -b then toward start stop i + (if start < stop then 1 else -1)
        else toward start stop i := by
  unfold nextX
  split
  · exact toward_succ
  · rfl

theorem toward_nextY (start stop : Int) (a b i j : Nat) :
    toward start stop (nextY a b i j)
      = if 2 * errorAt a b i j ≤ a then toward start stop j + (if start < stop then 1 else -1)
        else toward start stop j := by
  unfold nextY
  split
  · exact toward_succ
  · rfl

variable (ha : (x1 - x0).natAbs = a) (hb : (y1 - y0).natAbs = b)
include ha hb

theorem at_stop_iff :
    (toward x0 x1 i == (slope x0 y0 x1 y1).stopX && toward y0 y1 j == (slope x0 y0 x1 y1).stopY) = true
      ↔ i = a ∧ j = b := by
  rw [Bool.and_eq_true, beq_iff_eq, beq_iff_eq, ← ha, ← hb, ← toward_eq_stop_iff, ← toward_eq_stop_iff]
  rfl

theorem walk_stop (fuel : Nat) (err : Int) :
    walk (slope x0 y0 x1 y1) (fuel + 1) (toward x0 x1 a) (toward y0 y1 b) err = [(x1, y1)] := by
  rw [walk, if_pos ((at_stop_iff ha hb).mpr ⟨rfl, rfl⟩), toward_eq_stop_iff.mpr ha.symm, toward_eq_stop_iff.mpr hb.symm]

theorem walk_next (h : ¬(i = a ∧ j = b)) (fuel : Nat) :
    walk (slope x0 y0 x1 y1) (fuel + 1) (toward x0 x1 i) (toward y0 y1 j) (errorAt a b i j)
      = (toward x0 x1 i, toward y0 y1 j)
        :: walk (slope x0 y0 x1 y1) fuel (toward x0 x1 (nextX a b i j)) (toward y0 y1 (nextY a b i j))
          (errorAt a b (nextX a b i j) (nextY a b i j)) := by
  rw [walk, if_neg fun hstop => h ((at_stop_iff ha hb).mp hstop), errorAt_next, toward_nextX, toward_nextY, ← ha, ← hb]
  rfl

end Walk

section Words

variable {x0 y0 x1 y1 : Int32} {a b i j k : Nat}

theorem in32_toward {start stop : Int32} {n : Nat} (h : n ≤ (stop.toInt - start.toInt).natAbs) :
    -0x80000000 ≤ toward start.toInt stop.toInt n ∧ toward start.toInt stop.toInt n < 0x80000000 := by
  have hstart := start.le_toInt
  have hstart' := start.toInt_lt
  have hstop := stop.le_toInt
  have hstop' := stop.toInt_lt
  unfold toward
  split <;> omega

variable (ha : (x1.toInt - x0.toInt).natAbs = a) (hb : (y1.toInt - y0.toInt).natAbs = b)
include ha hb

theorem walk?_stop (rounds : Nat) (err : Int) :
    walk? (slope x0.toInt y0.toInt x1.toInt y1.toInt) (rounds + 1) (toward x0.toInt x1.toInt a)
        (toward y0.toInt y1.toInt b) err
      = some [(x1.toInt, y1.toInt)] := by
  rw [walk?, if_pos ((at_stop_iff ha hb).mpr ⟨rfl, rfl⟩), toward_eq_stop_iff.mpr ha.symm,
    toward_eq_stop_iff.mpr hb.symm]
  rfl

theorem walk?_next (hx : a < 0x20000000) (hy : b < 0x20000000) (h : Tracks a b k i j) (hk : k < max a b) (rounds : Nat)
    : walk? (slope x0.toInt y0.toInt x1.toInt y1.toInt) (rounds + 1) (toward x0.toInt x1.toInt i)
        (toward y0.toInt y1.toInt j) (errorAt a b i j)
      = (walk? (slope x0.toInt y0.toInt x1.toInt y1.toInt) rounds (toward x0.toInt x1.toInt (nextX a b i j))
          (toward y0.toInt y1.toInt (nextY a b i j)) (errorAt a b (nextX a b i j) (nextY a b i j))).map
          ((toward x0.toInt x1.toInt i, toward y0.toInt y1.toInt j) :: ·) := by
  have hbound := h.errorAt_bound hx hy
  have hle := h.next.le hk
  have hstop : ¬(i = a ∧ j = b) := by
    rw [h.end_iff hk.le]
    omega
  have hnextX := in32_toward (hle.1.trans_eq ha.symm)
  have hnextY := in32_toward (hle.2.trans_eq hb.symm)
  rw [toward_nextX] at hnextX
  rw [toward_nextY] at hnextY
  have hdx : (slope x0.toInt y0.toInt x1.toInt y1.toInt).dx = a := congrArg Int.ofNat ha
  have hdy : (slope x0.toInt y0.toInt x1.toInt y1.toInt).dy = -b := congrArg (fun n : Nat => -(n : Int)) hb
  have herr : (if 2 * errorAt a b i j ≤ a
        then (if 2 * errorAt a b i j ≥ -b then errorAt a b i j + -b else errorAt a b i j) + a
        else if 2 * errorAt a b i j ≥ -b then errorAt a b i j + -b else errorAt a b i j)
      = errorAt a b (nextX a b i j) (nextY a b i j) := by
    rw [errorAt_next]
    split <;> split <;> omega
  rw [walk?, if_neg fun hmet => hstop ((at_stop_iff ha hb).mp hmet), hdx, hdy, within_bind (by omega),
    addIf?_bind (by omega), addIf?_bind fun hstep => ?_, addIf?_bind fun _ => ?_, addIf?_bind fun hstep => ?_, herr,
    toward_nextX, toward_nextY]
  · exact bind_pure_comp _ _
  · rwa [if_pos hstep] at hnextY
  · split <;> omega
  · rwa [if_pos hstep] at hnextX

end Words

section Straight

/-- A step towards the end of a segment: by one along a longest side, and by at most one along the other. -/
structure Advance (x0 y0 x1 y1 : Int) (p q : Point) : Prop where
  alongX : (y1 - y0).natAbs ≤ (x1 - x0).natAbs → Nears x1 1 p.1 q.1
  alongY : (x1 - x0).natAbs ≤ (y1 - y0).natAbs → Nears y1 1 p.2 q.2
  atMost : ∃ m n, m ≤ 1 ∧ n ≤ 1 ∧ Nears x1 m p.1 q.1 ∧ Nears y1 n p.2 q.2

structure Leads (x0 y0 x1 y1 : Int) (p : Point) (left : Nat) (points : List Point) : Prop where
  length : points.length = left + 1
  first : points.head? = some p
  last : points.getLast? = some (x1, y1)
  steps : points.IsChain (Advance x0 y0 x1 y1)
  near : ∀ q ∈ points,
    2 * ((q.1 - x0).natAbs * (y1 - y0).natAbs - (q.2 - y0).natAbs * (x1 - x0).natAbs : Int).natAbs
      ≤ max (x1 - x0).natAbs (y1 - y0).natAbs

theorem Leads.cons {x0 y0 x1 y1 : Int} {p q : Point} {left : Nat} {points : List Point}
    (h : Leads x0 y0 x1 y1 q left points) (hstep : Advance x0 y0 x1 y1 p q)
    (hnear : 2 * ((p.1 - x0).natAbs * (y1 - y0).natAbs - (p.2 - y0).natAbs * (x1 - x0).natAbs : Int).natAbs
      ≤ max (x1 - x0).natAbs (y1 - y0).natAbs)
    : Leads x0 y0 x1 y1 p (left + 1) (p :: points) := by
  constructor
  · rw [List.length_cons, h.length]
  · rfl
  · rw [List.getLast?_cons, h.last]
    rfl
  · apply List.isChain_cons.mpr
    refine ⟨?_, h.steps⟩
    intro q' hq'
    rw [h.first] at hq'
    cases hq'
    exact hstep
  · intro q' hq'
    rcases List.mem_cons.mp hq' with rfl | hq'
    · exact hnear
    · exact h.near q' hq'

variable {x0 y0 x1 y1 : Int} {a b i j k : Nat}
variable (ha : (x1 - x0).natAbs = a) (hb : (y1 - y0).natAbs = b)
include ha hb

theorem Tracks.near_point (h : Tracks a b k i j) :
    2 * ((toward x0 x1 i - x0).natAbs * (y1 - y0).natAbs - (toward y0 y1 j - y0).natAbs * (x1 - x0).natAbs : Int).natAbs
      ≤ max (x1 - x0).natAbs (y1 - y0).natAbs := by
  rw [natAbs_toward_sub, natAbs_toward_sub, ha, hb]
  exact h.near

theorem Tracks.advance (h : Tracks a b k i j) (hk : k < max a b) :
    Advance x0 y0 x1 y1 (toward x0 x1 i, toward y0 y1 j)
      (toward x0 x1 (nextX a b i j), toward y0 y1 (nextY a b i j)) := by
  have hnext := h.next
  have hle := hnext.le hk
  have hboundX := nextX_le a b i j
  have hboundY := nextY_le a b i j
  have hnearsX := nears_toward hboundX.1 (hle.1.trans_eq ha.symm)
  have hnearsY := nears_toward hboundY.1 (hle.2.trans_eq hb.symm)
  constructor
  · intro hside
    rw [ha, hb] at hside
    have hstep : nextX a b i j - i = 1 := by
      rw [hnext.alongX hside, h.alongX hside]
      omega
    rwa [hstep] at hnearsX
  · intro hside
    rw [ha, hb] at hside
    have hstep : nextY a b i j - j = 1 := by
      rw [hnext.alongY hside, h.alongY hside]
      omega
    rwa [hstep] at hnearsY
  · exact ⟨_, _, by omega, by omega, hnearsX, hnearsY⟩

theorem Tracks.leads_stop (h : Tracks a b (max a b) i j) :
    Leads x0 y0 x1 y1 (toward x0 x1 i, toward y0 y1 j) 0 [(x1, y1)] := by
  obtain ⟨rfl, rfl⟩ := (h.end_iff (Nat.le_refl _)).mpr rfl
  have hnear := h.near_point ha hb
  rw [toward_eq_stop_iff.mpr ha.symm, toward_eq_stop_iff.mpr hb.symm] at hnear ⊢
  constructor
  · rfl
  · rfl
  · rfl
  · exact List.isChain_singleton _
  · intro q hq
    rw [List.mem_singleton.mp hq]
    exact hnear

end Straight

theorem Tracks.exists_points {x0 y0 x1 y1 : Int32} {a b k i j left : Nat}
    (ha : (x1.toInt - x0.toInt).natAbs = a) (hb : (y1.toInt - y0.toInt).natAbs = b) (h : Tracks a b k i j)
    (hleft : k + left = max a b)
    : ∃ points,
      Leads x0.toInt y0.toInt x1.toInt y1.toInt (toward x0.toInt x1.toInt i, toward y0.toInt y1.toInt j) left points
      ∧ (∀ more, walk (slope x0.toInt y0.toInt x1.toInt y1.toInt) (left + 1 + more) (toward x0.toInt x1.toInt i)
          (toward y0.toInt y1.toInt j) (errorAt a b i j) = points)
      ∧ (a < 0x20000000 → b < 0x20000000 →
          ∀ more, walk? (slope x0.toInt y0.toInt x1.toInt y1.toInt) (left + 1 + more) (toward x0.toInt x1.toInt i)
            (toward y0.toInt y1.toInt j) (errorAt a b i j) = some points) := by
  induction left generalizing k i j with
  | zero =>
    obtain rfl : k = max a b := hleft
    refine ⟨_, h.leads_stop ha hb, ?_, ?_⟩
    · intro more
      obtain ⟨rfl, rfl⟩ := (h.end_iff (Nat.le_refl _)).mpr rfl
      rw [Nat.add_right_comm]
      exact walk_stop ha hb _ _
    · intro _ _ more
      obtain ⟨rfl, rfl⟩ := (h.end_iff (Nat.le_refl _)).mpr rfl
      rw [Nat.add_right_comm]
      exact walk?_stop ha hb _ _
  | succ left ih =>
    have hk : k < max a b := by omega
    have hstop : ¬(i = a ∧ j = b) := by
      rw [h.end_iff hk.le]
      omega
    obtain ⟨points, hleads, hwalk, hwords⟩ := ih h.next (by omega)
    refine ⟨_ :: points, hleads.cons (h.advance ha hb hk) (h.near_point ha hb), ?_, ?_⟩
    · intro more
      rw [Nat.add_right_comm, walk_next ha hb hstop, hwalk]
    · intro hx hy more
      rw [Nat.add_right_comm, walk?_next ha hb hx hy h hk, hwords hx hy]
      rfl

theorem linePoints_eq (x0 y0 x1 y1 : Int) :
    linePoints x0 y0 x1 y1
      = walk (slope x0 y0 x1 y1)
          (max (x1 - x0).natAbs (y1 - y0).natAbs + 1 + min (x1 - x0).natAbs (y1 - y0).natAbs) (toward x0 x1 0)
          (toward y0 y1 0) (errorAt (x1 - x0).natAbs (y1 - y0).natAbs 0 0) := by
  have hfuel : (((x1 - x0).natAbs : Int) - -((y1 - y0).natAbs : Int)).toNat + 1
      = max (x1 - x0).natAbs (y1 - y0).natAbs + 1 + min (x1 - x0).natAbs (y1 - y0).natAbs := by
    omega
  rw [toward_zero, toward_zero, errorAt_start, ← hfuel, Int.sub_eq_add_neg (a := ((x1 - x0).natAbs : Int))]
  rfl

theorem linePoints?_eq {x0 y0 x1 y1 : Int} (hx : (x1 - x0).natAbs < 0x20000000) (hy : (y1 - y0).natAbs < 0x20000000)
    (rounds : Nat)
    : linePoints? rounds x0 y0 x1 y1
      = walk? (slope x0 y0 x1 y1) rounds (toward x0 x1 0) (toward y0 y1 0)
          (errorAt (x1 - x0).natAbs (y1 - y0).natAbs 0 0) := by
  unfold linePoints? absInt
  rw [within_bind (by omega), within_bind (by omega), within_bind (by omega), within_bind (by omega),
    within_bind (by omega), within_bind (by omega), toward_zero, toward_zero, errorAt_start, ← Int.sub_eq_add_neg]
  rfl

/--
The points of a segment lead from its start to its end along the longer side. In words of 32 bits the walk along a
segment with sides below 2 ^ 29 comes to its end and finds the same points, if it is given a round for each of them.
-/
theorem linePoints_straight (x0 y0 x1 y1 : Int32) (hx : (x1.toInt - x0.toInt).natAbs < 0x20000000)
    (hy : (y1.toInt - y0.toInt).natAbs < 0x20000000)
    : Leads x0.toInt y0.toInt x1.toInt y1.toInt (x0.toInt, y0.toInt)
        (max (x1.toInt - x0.toInt).natAbs (y1.toInt - y0.toInt).natAbs)
        (linePoints x0.toInt y0.toInt x1.toInt y1.toInt)
      ∧ ∀ rounds, max (x1.toInt - x0.toInt).natAbs (y1.toInt - y0.toInt).natAbs < rounds →
        linePoints? rounds x0.toInt y0.toInt x1.toInt y1.toInt
          = some (linePoints x0.toInt y0.toInt x1.toInt y1.toInt) := by
  obtain ⟨points, hleads, hwalk, hwords⟩ := (Tracks.start _ _).exists_points rfl rfl (Nat.zero_add _)
  obtain rfl : linePoints x0.toInt y0.toInt x1.toInt y1.toInt = points := (linePoints_eq _ _ _ _).trans (hwalk _)
  rw [toward_zero, toward_zero] at hleads
  refine ⟨hleads, ?_⟩
  intro rounds hrounds
  obtain ⟨more, rfl⟩ := Nat.exists_eq_add_of_le (Nat.succ_le_of_lt hrounds)
  rw [linePoints?_eq hx hy]
  exact hwords hx hy more

theorem linePoints_straight_steep :
    Leads 4 6 1 (-2) (4, 6) 8 (linePoints 4 6 1 (-2))
      ∧ ∀ rounds, 8 < rounds → linePoints? rounds 4 6 1 (-2) = some (linePoints 4 6 1 (-2)) :=
  linePoints_straight 4 6 1 (-2) (by decide) (by decide)

end Handheld.Raster
