import Handheld.Proofs.Memory
import Handheld.Machine.Drawing

/-!
Drawing stays on the raster, also if the raster lies in a longer piece of memory.
-/
namespace Handheld

theorem eq_of_mul_add_eq {width row row' col col' : Nat} (hcol : col < width) (hcol' : col' < width)
    (h : row * width + col = row' * width + col')
    : row = row' ∧ col = col' := by
  have hpos : 0 < width := by omega
  -- the row is the quotient by the width, and the column is the rest
  have hdiv := congrArg (· / width) h
  have hmod := congrArg (· % width) h
  simp only [Nat.mul_comm _ width, Nat.mul_add_div hpos, Nat.mul_add_mod, Nat.div_eq_of_lt hcol,
    Nat.div_eq_of_lt hcol', Nat.mod_eq_of_lt hcol, Nat.mod_eq_of_lt hcol', Nat.add_zero] at hdiv hmod
  exact ⟨hdiv, hmod⟩

namespace Raster

variable {r r' r'' : Raster}

structure Redrawn (r r' : Raster) : Prop where
  width : r'.width = r.width
  height : r'.height = r.height
  bits : r'.bits.size = r.bits.size
  rest : ∀ i, size r.width r.height ≤ i → r'.bits[i]? = r.bits[i]?

theorem Redrawn.refl (r : Raster) : Redrawn r r :=
  ⟨rfl, rfl, rfl, fun _ _ => rfl⟩

theorem Redrawn.trans (h : Redrawn r r') (h' : Redrawn r' r'') : Redrawn r r'' := by
  refine ⟨h'.width.trans h.width, h'.height.trans h.height, h'.bits.trans h.bits, fun i hi => ?_⟩
  have hi' : size r'.width r'.height ≤ i := by
    rw [h.width, h.height]
    exact hi
  rw [h'.rest i hi', h.rest i hi]

theorem index_lt_size {p : Point} (h : r.contains p = true) : r.index p < size r.width r.height := by
  simp only [contains, Bool.and_eq_true, decide_eq_true_eq] at h
  obtain ⟨⟨⟨hx, hwidth⟩, hy⟩, hheight⟩ := h
  have hrow : p.2.toNat + 1 ≤ r.height := by omega
  have hcol : p.1.toNat / 8 < stride r.width := by
    unfold stride
    omega
  calc
    r.index p
    _ < p.2.toNat * stride r.width + stride r.width := Nat.add_lt_add_left hcol _
    _ = stride r.width * (p.2.toNat + 1) := by rw [Nat.mul_succ, Nat.mul_comm]
    _ ≤ size r.width r.height := Nat.mul_le_mul_left _ hrow

theorem Redrawn.foldl {α : Type} {f : Raster → α → Raster} (h : ∀ r a, Redrawn r (f r a)) (r : Raster) (l : List α) :
    Redrawn r (l.foldl f r) := by
  induction l generalizing r with
  | nil => exact .refl r
  | cons a l ih => exact (h r a).trans (ih _)

theorem redrawn_plot (r : Raster) (p : Point) (mode : Mode) : Redrawn r (r.plot p mode) := by
  unfold plot
  split
  next hcontains =>
    have hindex := index_lt_size hcontains
    refine ⟨rfl, rfl, Array.size_modify, fun i hi => ?_⟩
    rw [Array.getElem?_modify, if_neg (by omega)]
  next => exact .refl r

theorem redrawn_draw (r : Raster) (points : List Point) (mode : Mode) : Redrawn r (r.draw points mode) :=
  Redrawn.foldl (fun r p => redrawn_plot r p mode) r (distinct points)

theorem redrawn_blit (r : Raster) (x y : Int) (width height : Nat) (data : Array UInt8) (mode : Mode) :
    Redrawn r (r.blit x y width height data mode) := by
  refine Redrawn.foldl (fun r py => ?_) r _
  refine Redrawn.foldl (fun r px => ?_) r _
  split
  · exact redrawn_plot r (px, py) mode
  · exact .refl r

theorem redrawn_line (r : Raster) (x0 y0 x1 y1 : Int) (mode : Mode) : Redrawn r (r.line x0 y0 x1 y1 mode) := by
  unfold line
  split
  next => exact .refl r
  next => exact redrawn_draw r _ mode

theorem redrawn_drawCodes (font : Font) (fontSize : FontSize) (y : Int) (mode : Mode) (x : Int) (codes : List UInt16)
    (r : Raster) : Redrawn r (Machine.drawCodes font fontSize y mode x codes r) := by
  induction codes generalizing x r with
  | nil => exact .refl r
  | cons code codes ih =>
    rw [Machine.drawCodes]
    refine Redrawn.trans ?_ (ih _ _)
    split
    next => exact redrawn_blit r _ _ _ _ _ mode
    next => exact .refl r

end Raster

namespace Machine

theorem size_of_dvd {width : Nat} (h : width % 8 = 0) (height : Nat) :
    Raster.size width height = width * height / 8 := by
  obtain ⟨n, rfl⟩ := Nat.dvd_of_mod_eq_zero h
  have hstride : Raster.stride (8 * n) = n := by
    unfold Raster.stride
    omega
  rw [Raster.size, hstride, Nat.mul_assoc, Nat.mul_div_cancel_left _ (by omega)]

theorem sameOutside_draw {m : Machine} {kind : Int32} {f : Raster → Raster} (h : ∀ r, Raster.Redrawn r (f r)) :
    Memory.SameOutside (planeStart kind) (Raster.size m.header.width.toNat m.header.height.toNat) m.memory
      (m.draw kind f).memory := by
  apply Memory.sameOutside_setRegion Memory.rasterSize
  intro i hi
  exact .inr ((h (m.plane kind)).rest i hi)

end Machine
end Handheld
