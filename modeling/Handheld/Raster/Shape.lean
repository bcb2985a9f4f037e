import Handheld.Raster.Basic

/-!
Rectangles, ellipses, connected regions and bitmaps as lists of the points they consist of.
-/
namespace Handheld.Raster

def rectPoints (r : Raster) (x0 y0 x1 y1 : Int) (fill : Bool) : List Point :=
  let (left, right) := (min x0 x1, max x0 x1)
  let (top, bottom) := (min y0 y1, max y0 y1)
  (visible top bottom r.height).flatMap fun y =>
    ((visible left right r.width).filter fun x =>
      fill || y == top || y == bottom || x == left || x == right).map (·, y)

def rect (r : Raster) (x0 y0 x1 y1 : Int) (fill : Bool) (mode : Mode) : Raster :=
  r.draw (r.rectPoints x0 y0 x1 y1 fill) mode

def largest (holds : Nat → Bool) (low high : Nat) : Nat :=
  if low < high then
    let mid := (low + high + 1) / 2
    if holds mid then largest holds mid high else largest holds low (mid - 1)
  else
    low
termination_by high - low
decreasing_by all_goals omega

def ellipseSpan (rx ry dy : Nat) : Nat :=
  if ry == 0 then rx
  else if ry < dy then 0
  else largest (fun dx => dx * dx * (ry * ry) + dy * dy * (rx * rx) ≤ rx * rx * (ry * ry)) 0 rx

def diskPoints (r : Raster) (cx cy : Int) (rx ry : Nat) : List Point :=
  (visible (cy - ry) (cy + ry) r.height).flatMap fun y =>
    let span := ellipseSpan rx ry (y - cy).natAbs
    (visible (cx - span) (cx + span) r.width).map (·, y)

def ringPoints (r : Raster) (cx cy : Int) (rx ry : Nat) : List Point :=
  let sides := (visible (cy - ry) (cy + ry) r.height).flatMap fun y =>
    let span := ellipseSpan rx ry (y - cy).natAbs
    [(cx - span, y), (cx + span, y)]
  let caps := (visible (cx - rx) (cx + rx) r.width).flatMap fun x =>
    let span := ellipseSpan ry rx (x - cx).natAbs
    [(x, cy - span), (x, cy + span)]
  sides ++ caps

def ellipse (r : Raster) (cx cy rx ry : Int) (fill : Bool) (mode : Mode) : Raster :=
  let points :=
    if fill then r.diskPoints cx cy rx.natAbs ry.natAbs else r.ringPoints cx cy rx.natAbs ry.natAbs
  r.draw points mode

def pixelIndex (r : Raster) (p : Point) : Nat :=
  p.2.toNat * r.width + p.1.toNat

/--
Collects pixels of one colour that are connected to those in `todo`, in addition to `region`. `seen` marks
the pixels already collected, and `fuel` bounds the pixels looked at.
-/
def flood (r : Raster) (colour : Bool) : Nat → List Point → Array Bool → List Point → List Point
  | 0, _, _, region => region
  | _ + 1, [], _, region => region
  | fuel + 1, (x, y) :: todo, seen, region =>
    let i := r.pixelIndex (x, y)
    if r.contains (x, y) && !(seen[i]?.getD true) && r.get (x, y) == colour then
      flood r colour fuel ((x, y - 1) :: (x, y + 1) :: (x - 1, y) :: (x + 1, y) :: todo)
        (seen.setIfInBounds i true) ((x, y) :: region)
    else
      flood r colour fuel todo seen region

def regionOf (r : Raster) (p : Point) : List Point :=
  if r.contains p then
    -- four neighbours for each pixel, and the first one
    flood r (r.get p) (4 * (r.width * r.height) + 2) [p]
      (Array.replicate (r.width * r.height) false) []
  else
    []

def fill (r : Raster) (p : Point) (mode : Mode) : Raster :=
  r.draw (r.regionOf p) mode

def bitmapBit (width : Nat) (data : Array UInt8) (col row : Nat) : Bool :=
  (data[row * stride width + col / 8]?.getD 0) &&& (0x80 >>> UInt8.ofNat (col % 8)) != 0

def blit (r : Raster) (x y : Int) (width height : Nat) (data : Array UInt8) (mode : Mode) : Raster :=
  let columns := visible x (x + width - 1) r.width
  (visible y (y + height - 1) r.height).foldl
    (fun r py =>
      columns.foldl
        (fun r px =>
          if bitmapBit width data (px - x).toNat (py - y).toNat then r.plot (px, py) mode else r)
        r)
    r

def grab (r : Raster) (left top : Int) (width height limit : Nat) : Array UInt8 :=
  let data := Array.replicate (min (stride width * height) limit) (0 : UInt8)
  (visible top (top + height - 1) r.height).foldl
    (fun data py =>
      (visible left (left + width - 1) r.width).foldl
        (fun data px =>
          let col := (px - left).toNat
          if r.get (px, py) then
            data.modify ((py - top).toNat * stride width + col / 8)
              (· ||| (0x80 >>> UInt8.ofNat (col % 8)))
          else
            data)
        data)
    data

end Handheld.Raster
