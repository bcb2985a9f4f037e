import Handheld.Proofs.Raster
import Mathlib.Data.List.Nodup
import Mathlib.Data.List.Perm.Basic

/-!
Pixels are independent of each other. A plot changes one bit, so the order of plots does not matter.
-/
namespace Handheld

variable {points points' : List Point}

namespace Mode

def on : Mode → Bool → Bool
  | clear, _ => false
  | set, _ => true
  | invert, lit => !lit

theorem getLsbD_combine (mode : Mode) (bits mask : UInt8) {i : Nat} (hi : i < 8) :
    (mode.combine bits mask).toBitVec.getLsbD i
      = if mask.toBitVec.getLsbD i then mode.on (bits.toBitVec.getLsbD i) else bits.toBitVec.getLsbD i := by
  cases mode with
  | clear => cases hmask : mask.toBitVec.getLsbD i <;> simp [combine, on, hmask, hi, -BitVec.getLsbD_eq_getElem]
  | set | invert => cases hmask : mask.toBitVec.getLsbD i <;> simp [combine, on, hmask]

theorem combine_right_comm (mode : Mode) (bits mask mask' : UInt8) :
    mode.combine (mode.combine bits mask) mask' = mode.combine (mode.combine bits mask') mask := by
  cases mode with
  | clear | set | invert =>
    simp only [combine]
    ac_rfl

end Mode

namespace Raster

variable {r r' : Raster} {p q : Point} {mode : Mode}

theorem toBitVec_bit (p : Point) : (bit p).toBitVec = BitVec.twoPow 8 (7 - p.1.toNat % 8) := by
  have hall : ∀ k : Fin 8, (0x80 >>> UInt8.ofNat k : UInt8).toBitVec = BitVec.twoPow 8 (7 - k) := by decide
  exact hall ⟨p.1.toNat % 8, Nat.mod_lt _ (by decide)⟩

theorem getLsbD_bit (p : Point) (i : Nat) : (bit p).toBitVec.getLsbD i = decide (i = 7 - p.1.toNat % 8) := by
  have hlt : 7 - p.1.toNat % 8 < 8 := by omega
  rw [toBitVec_bit, BitVec.getLsbD_twoPow, decide_eq_true hlt, Bool.true_and]
  simp only [eq_comm]

theorem and_bit_ne_zero (bits : UInt8) (p : Point) :
    (bits &&& bit p != 0) = bits.toBitVec.getLsbD (7 - p.1.toNat % 8) := by
  have hlt : 7 - p.1.toNat % 8 < 8 := by omega
  rw [Bool.eq_iff_iff, bne_iff_ne, ne_eq, ← UInt8.toBitVec_inj, UInt8.toBitVec_and, toBitVec_bit, BitVec.and_twoPow]
  cases bits.toBitVec.getLsbD (7 - p.1.toNat % 8) with
  | false => simp
  | true =>
    have hne : BitVec.twoPow 8 (7 - p.1.toNat % 8) ≠ 0#8 := by
      intro heq
      have hbit := BitVec.getLsbD_twoPow (w := 8) (7 - p.1.toNat % 8) (7 - p.1.toNat % 8)
      rw [heq, decide_eq_true hlt] at hbit
      simp at hbit
    simpa using hne

theorem get_eq (h : r.contains p) : r.get p = (r.bits[r.index p]?.getD 0).toBitVec.getLsbD (7 - p.1.toNat % 8) := by
  rw [get, h, Bool.true_and, and_bit_ne_zero]

theorem eq_of_index_of_bit (hp : r.contains p) (hq : r.contains q) (hindex : r.index p = r.index q)
    (hbit : p.1.toNat % 8 = q.1.toNat % 8)
    : p = q := by
  simp only [contains, Bool.and_eq_true, decide_eq_true_eq] at hp hq
  obtain ⟨⟨⟨hpx, hpwidth⟩, hpy⟩, -⟩ := hp
  obtain ⟨⟨⟨hqx, hqwidth⟩, hqy⟩, -⟩ := hq
  have hpcol : p.1.toNat / 8 < stride r.width := by
    unfold stride
    omega
  have hqcol : q.1.toNat / 8 < stride r.width := by
    unfold stride
    omega
  obtain ⟨hrow, hcol⟩ := eq_of_mul_add_eq hpcol hqcol hindex
  apply Prod.ext
  · omega
  · omega

@[simp] theorem width_plot (r : Raster) (p : Point) (mode : Mode) : (r.plot p mode).width = r.width :=
  (redrawn_plot r p mode).width

@[simp] theorem height_plot (r : Raster) (p : Point) (mode : Mode) : (r.plot p mode).height = r.height :=
  (redrawn_plot r p mode).height

@[simp] theorem size_bits_plot (r : Raster) (p : Point) (mode : Mode) : (r.plot p mode).bits.size = r.bits.size :=
  (redrawn_plot r p mode).bits

@[simp] theorem contains_plot (r : Raster) (p q : Point) (mode : Mode) : (r.plot p mode).contains q = r.contains q := by
  rw [contains, contains, width_plot, height_plot]

@[simp] theorem index_plot (r : Raster) (p q : Point) (mode : Mode) : (r.plot p mode).index q = r.index q := by
  rw [index, index, width_plot]

theorem getElem?_plot (r : Raster) (p : Point) (mode : Mode) (i : Nat) :
    (r.plot p mode).bits[i]?
      = if r.contains p = true ∧ r.index p = i then r.bits[i]?.map (mode.combine · (bit p)) else r.bits[i]? := by
  unfold plot
  split
  next hp => simp only [Array.getElem?_modify, hp, true_and]
  next hp => rw [if_neg fun h => hp h.1]

theorem get_plot (hbits : size r.width r.height ≤ r.bits.size) (hp : r.contains p) (q : Point) :
    (r.plot p mode).get q = if p = q then mode.on (r.get q) else r.get q := by
  cases hq : r.contains q with
  | false =>
    have hne : p ≠ q := fun heq => by simp [← heq, hp] at hq
    rw [if_neg hne, get, get, contains_plot, hq, Bool.false_and, Bool.false_and]
  | true =>
    have hlt := Nat.lt_of_lt_of_le (index_lt_size hq) hbits
    rw [get_eq hq, get_eq ((contains_plot r p q mode).trans hq), index_plot, getElem?_plot]
    simp only [hp, true_and]
    split
    next hindex =>
      rw [Array.getElem?_eq_getElem hlt, Option.map_some, Option.getD_some, Option.getD_some,
        Mode.getLsbD_combine mode _ _ (by omega), getLsbD_bit]
      have hiff : 7 - q.1.toNat % 8 = 7 - p.1.toNat % 8 ↔ p = q := by
        constructor
        · intro heq
          exact eq_of_index_of_bit hp hq hindex (by omega)
        · rintro rfl
          rfl
      simp only [decide_eq_true_eq, hiff]
    next hindex =>
      rw [if_neg fun heq => hindex (by rw [heq])]

theorem ext_bits (hwidth : r.width = r'.width) (hheight : r.height = r'.height)
    (hbits : ∀ i : Nat, r.bits[i]? = r'.bits[i]?)
    : r = r' := by
  cases r
  cases r'
  cases hwidth
  cases hheight
  congr
  exact Array.ext_getElem? hbits

theorem plot_right_comm (r : Raster) (p q : Point) (mode : Mode) :
    (r.plot p mode).plot q mode = (r.plot q mode).plot p mode := by
  refine ext_bits (by simp) (by simp) fun i => ?_
  simp only [getElem?_plot, contains_plot, index_plot]
  split
  · split
    · simp only [Option.map_map, Function.comp_def, Mode.combine_right_comm]
    · rfl
  · rfl

instance : RightCommutative fun (r : Raster) (p : Point) => r.plot p mode :=
  ⟨fun r p q => plot_right_comm r p q mode⟩

theorem plot_invert_twice (r : Raster) (p : Point) : (r.plot p .invert).plot p .invert = r := by
  refine ext_bits (by simp) (by simp) fun i => ?_
  simp only [getElem?_plot, contains_plot, index_plot]
  split
  · have hxor (bits : UInt8) : Mode.invert.combine (Mode.invert.combine bits (bit p)) (bit p) = bits := by
      rw [Mode.combine, Mode.combine, UInt8.xor_assoc, UInt8.xor_self, UInt8.xor_zero]
    simp only [Option.map_map, Function.comp_def, hxor, Option.map_id']
  · rfl

theorem get_plots (h : points.Nodup) (hbits : size r.width r.height ≤ r.bits.size)
    (hpoints : ∀ p ∈ points, r.contains p) (mode : Mode) (q : Point)
    : (points.foldl (·.plot · mode) r).get q = if q ∈ points then mode.on (r.get q) else r.get q := by
  induction points generalizing r with
  | nil => simp
  | cons p points ih =>
    obtain ⟨hp, hnodup⟩ := List.nodup_cons.mp h
    have hplot : (r.plot p mode).get q = _ := get_plot hbits (hpoints p List.mem_cons_self) q
    rw [List.foldl_cons, ih hnodup (by simpa using hbits)
      (fun p' hp' => by simpa using hpoints p' (List.mem_cons_of_mem p hp')), hplot]
    by_cases heq : p = q
    · subst heq
      simp [hp]
    · simp [heq, Ne.symm heq]

theorem plots_filter_contains (r : Raster) (points : List Point) (mode : Mode) :
    (points.filter r.contains).foldl (·.plot · mode) r = points.foldl (·.plot · mode) r := by
  rw [List.foldl_filter]
  induction points generalizing r with
  | nil => rfl
  | cons p points ih =>
    have hplot : (if r.contains p = true then r.plot p mode else r) = r.plot p mode := by
      unfold plot
      split <;> rfl
    have hcontains : (r.plot p mode).contains = r.contains := funext fun q => contains_plot r p q mode
    rw [List.foldl_cons, List.foldl_cons, hplot, ← ih, hcontains]

/-- Two lists that have the same pixels, each of them once, plot the same picture. -/
theorem plots_congr (h : points.Nodup) (h' : points'.Nodup)
    (hmem : ∀ p, r.contains p = true → (p ∈ points ↔ p ∈ points')) (mode : Mode)
    : points.foldl (·.plot · mode) r = points'.foldl (·.plot · mode) r := by
  have hperm : (points.filter r.contains).Perm (points'.filter r.contains) := by
    rw [List.perm_ext_iff_of_nodup (h.filter _) (h'.filter _)]
    intro p
    rw [List.mem_filter, List.mem_filter]
    exact and_congr_left (hmem p)
  rw [← plots_filter_contains, hperm.foldl_eq, plots_filter_contains]

theorem plots_invert_twice (r : Raster) (points : List Point) :
    points.foldl (·.plot · .invert) (points.foldl (·.plot · .invert) r) = r := by
  induction points generalizing r with
  | nil => rfl
  | cons p points ih =>
    -- the second plot of the first point moves to the front
    have hmove := (List.perm_append_singleton p points).foldl_eq (f := (·.plot · .invert)) (r.plot p .invert)
    rw [List.foldl_append] at hmove
    simp only [List.foldl_cons, List.foldl_nil] at hmove ⊢
    rw [hmove, plot_invert_twice, ih]

end Raster
end Handheld
