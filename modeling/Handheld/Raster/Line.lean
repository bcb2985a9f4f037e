import Handheld.Raster.Basic

/-!
Straight lines: the points of a segment, and the part of a segment that lies on a raster.
-/
namespace Handheld.Raster

def absInt (n : Int) : Int := n.natAbs

structure Slope where
  stopX : Int
  stopY : Int
  dx : Int
  dy : Int
  stepX : Int
  stepY : Int

def slope (x0 y0 x1 y1 : Int) : Slope where
  stopX := x1
  stopY := y1
  dx := absInt (x1 - x0)
  dy := -absInt (y1 - y0)
  stepX := if x0 < x1 then 1 else -1
  stepY := if y0 < y1 then 1 else -1

def walk (s : Slope) : Nat → Int → Int → Int → List Point
  | 0, _, _, _ => []
  | fuel + 1, x, y, err =>
    if x == s.stopX && y == s.stopY then [(x, y)]
    else
      let alongX := 2 * err ≥ s.dy
      let alongY := 2 * err ≤ s.dx
      let err := err + (if alongX then s.dy else 0) + (if alongY then s.dx else 0)
      (x, y) :: walk s fuel (if alongX then x + s.stepX else x) (if alongY then y + s.stepY else y) err

def linePoints (x0 y0 x1 y1 : Int) : List Point :=
  let s := slope x0 y0 x1 y1
  walk s ((s.dx - s.dy).toNat + 1) x0 y0 (s.dx + s.dy)

def clipEdge (range : Float × Float) (p q : Float) : Option (Float × Float) :=
  let (t0, t1) := range
  if p == 0.0 then
    if q < 0.0 then none else some range
  else
    let t := q / p
    if p < 0.0 then some (if t0 < t then t else t0, t1)
    else some (t0, if t < t1 then t else t1)

def nearest (x : Float) : Int :=
  x.round.toInt32.toInt

def clipLine (x0 y0 x1 y1 : Int) (width height : Nat) : Option (Point × Point) := do
  let (fx, fy) := (Float.ofInt x0, Float.ofInt y0)
  let (dx, dy) := (Float.ofInt x1 - fx, Float.ofInt y1 - fy)
  let right := Float.ofNat width - 1.0
  let bottom := Float.ofNat height - 1.0
  let range ← clipEdge (0.0, 1.0) (-dx) fx
  let range ← clipEdge range dx (right - fx)
  let range ← clipEdge range (-dy) fy
  let (t0, t1) ← clipEdge range dy (bottom - fy)
  if t0 > t1 then none
  else
    let point (t : Float) : Point := (nearest (fx + t * dx), nearest (fy + t * dy))
    some (point t0, point t1)

def line (r : Raster) (x0 y0 x1 y1 : Int) (mode : Mode) : Raster :=
  match clipLine x0 y0 x1 y1 r.width r.height with
  | none => r
  | some ((ax, ay), (bx, by')) => r.draw (linePoints ax ay bx by') mode

end Handheld.Raster
