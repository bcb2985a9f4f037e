import Handheld.Proofs.Raster.Bitmap
import Handheld.Proofs.Raster.Ellipse

/-!
Inverting a shape flips its pixels, and inverting it again brings back the picture.
-/
namespace Handheld.Raster

inductive Shape where
  | rect (x0 y0 x1 y1 : Int) (fill : Bool)
  | ellipse (cx cy rx ry : Int) (fill : Bool)
  | bitmap (x y : Int) (width height : Nat) (data : Array UInt8)
  | listed (points : List Point)

structure InRect (x0 y0 x1 y1 : Int) (p : Point) : Prop where
  column : min x0 x1 ≤ p.1 ∧ p.1 ≤ max x0 x1
  row : min y0 y1 ≤ p.2 ∧ p.2 ≤ max y0 y1

namespace Shape

def Covers : Shape → Point → Prop
  | rect x0 y0 x1 y1 fill, p =>
    InRect x0 y0 x1 y1 p ∧ (fill = true ∨ p.1 = x0 ∨ p.1 = x1 ∨ p.2 = y0 ∨ p.2 = y1)
  | ellipse cx cy rx ry fill, p => EllipseCovers cx cy rx ry fill p
  | bitmap x y width height data, p =>
    -- rows of whole bytes, with the first column in the highest bit
    ∃ col row : Nat, col < width ∧ row < height ∧ p = (x + col, y + row)
      ∧ (data[row * ((width + 7) / 8) + col / 8]?.getD 0).toNat.testBit (7 - col % 8) = true
  | listed points, p => p ∈ points

def drawOn (r : Raster) (mode : Mode) : Shape → Raster
  | rect x0 y0 x1 y1 fill => r.rect x0 y0 x1 y1 fill mode
  | ellipse cx cy rx ry fill => r.ellipse cx cy rx ry fill mode
  | bitmap x y width height data => r.blit x y width height data mode
  | listed points => r.draw points mode

end Shape

section Covers

variable {r : Raster} {x y x0 y0 x1 y1 : Int} {w h : Nat} {data : Array UInt8} {fill : Bool} {q : Point}

theorem mem_rectPoints (hq : r.contains q = true) :
    q ∈ r.rectPoints x0 y0 x1 y1 fill ↔ Shape.Covers (.rect x0 y0 x1 y1 fill) q := by
  rw [contains_iff] at hq
  simp only [rectPoints, List.mem_flatMap, List.mem_map, List.mem_filter, mem_visible, Bool.or_eq_true, beq_iff_eq,
    or_assoc]
  constructor
  · rintro ⟨py, ⟨hrow, -⟩, px, ⟨⟨hcol, -⟩, hborder⟩, rfl⟩
    refine ⟨⟨hcol, hrow⟩, hborder.imp_right fun hborder => ?_⟩
    dsimp only
    omega
  · rintro ⟨⟨hcol, hrow⟩, hborder⟩
    exact ⟨q.2, by omega, q.1, ⟨by omega, hborder.imp_right fun hborder => by omega⟩, rfl⟩

theorem mem_bitmapPoints_iff_covers (hq : r.contains q = true) :
    q ∈ r.bitmapPoints x y w h data ↔ Shape.Covers (.bitmap x y w h data) q := by
  rw [mem_bitmapPoints, bitmapBit_eq]
  constructor
  · rintro ⟨-, hblock, hbit⟩
    obtain ⟨hcol, hrow⟩ := inBlock_iff.mp hblock
    exact ⟨(q.1 - x).toNat, (q.2 - y).toNat, by omega, by omega, hblock.place.symm, hbit⟩
  · rintro ⟨col, row, hcol, hrow, rfl, hbit⟩
    have hcolumn : (x + col - x).toNat = col := by omega
    have hline : (y + row - y).toNat = row := by omega
    refine ⟨hq, inBlock_iff.mpr (by dsimp only; omega), ?_⟩
    simp only [hcolumn, hline]
    exact hbit

theorem appliedOnce_drawOn (hbits : size r.width r.height ≤ r.bits.size) (s : Shape) (mode : Mode) :
    AppliedOnce r mode s.Covers (s.drawOn r mode) := by
  cases s with
  | rect => exact appliedOnce_draw hbits (fun _ hq => mem_rectPoints hq) mode
  | ellipse cx cy rx ry fill => exact appliedOnce_ellipse hbits cx cy rx ry fill mode
  | bitmap x y width height data =>
    rw [Shape.drawOn, blit_eq_plots]
    exact appliedOnce_plots hbits (nodup_bitmapPoints r x y width height data)
      (fun _ hq => mem_bitmapPoints_iff_covers hq) mode
  | listed => exact appliedOnce_draw hbits (fun _ _ => Iff.rfl) mode

end Covers

section Twice

variable {r r' : Raster}

def Shape.points (r : Raster) : Shape → List Point
  | rect x0 y0 x1 y1 fill => r.rectPoints x0 y0 x1 y1 fill
  | ellipse cx cy rx ry fill =>
    if fill then r.diskPoints cx cy rx.natAbs ry.natAbs else r.ringPoints cx cy rx.natAbs ry.natAbs
  | bitmap x y width height data => r.bitmapPoints x y width height data
  | listed points => points

theorem drawOn_eq_draw (r : Raster) (s : Shape) (mode : Mode) : s.drawOn r mode = r.draw (s.points r) mode := by
  cases s with
  | rect | ellipse | listed => rfl
  | bitmap x y width height data => exact blit_eq_draw r x y width height data mode

theorem Redrawn.points_eq (h : Redrawn r r') (s : Shape) : s.points r' = s.points r := by
  cases s with
  | rect | ellipse | bitmap | listed =>
    simp only [Shape.points, rectPoints, diskPoints, ringPoints, bitmapPoints, h.width, h.height]

theorem drawOn_invert_twice (r : Raster) (s : Shape) : s.drawOn (s.drawOn r .invert) .invert = r := by
  -- what a shape has on a raster depends on the size of the raster, and drawing keeps that
  rw [drawOn_eq_draw, drawOn_eq_draw, (redrawn_draw r _ _).points_eq]
  exact plots_invert_twice r (distinct (s.points r))

end Twice

/-- Inverting a shape flips its pixels on the raster, and inverting it twice restores the raster bit for bit. -/
theorem invert_flips (r : Raster) (hbits : size r.width r.height ≤ r.bits.size) (s : Shape) :
    AppliedOnce r .invert s.Covers (s.drawOn r .invert) ∧ s.drawOn (s.drawOn r .invert) .invert = r :=
  ⟨appliedOnce_drawOn hbits s .invert, drawOn_invert_twice r s⟩

theorem invert_flips_box :
    size card.width card.height ≤ card.bits.size
      ∧ AppliedOnce card .invert (Shape.rect 8 3 12 (-1) false).Covers
        ((Shape.rect 8 3 12 (-1) false).drawOn card .invert)
      ∧ (Shape.rect 8 3 12 (-1) false).drawOn ((Shape.rect 8 3 12 (-1) false).drawOn card .invert) .invert = card := by
  have hbits : size card.width card.height ≤ card.bits.size := by decide
  exact ⟨hbits, invert_flips card hbits (.rect 8 3 12 (-1) false)⟩

end Handheld.Raster
