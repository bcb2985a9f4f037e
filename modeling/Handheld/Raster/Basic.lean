/-!
Rasters of one bit per pixel. Rows are whole bytes with the most significant bit at the left. Drawing takes a
list of points, sorts it so that equal points are neighbours, and plots each of them once; those off the raster are
left out.
-/
namespace Handheld

inductive Mode where
  | clear
  | set
  | invert
  deriving DecidableEq, Repr

namespace Mode

def ofType (t : Int32) : Mode :=
  if t &&& 3 == 0 then clear else if t &&& 3 == 2 then invert else set

def combine : Mode → UInt8 → UInt8 → UInt8
  | clear, bits, mask => bits &&& ~~~mask
  | set, bits, mask => bits ||| mask
  | invert, bits, mask => bits ^^^ mask

end Mode

structure Raster where
  width : Nat
  height : Nat
  bits : Array UInt8

abbrev Point := Int × Int

namespace Raster

def stride (width : Nat) : Nat :=
  (width + 7) / 8

def size (width height : Nat) : Nat :=
  stride width * height

def contains (r : Raster) (p : Point) : Bool :=
  0 ≤ p.1 && p.1 < r.width && 0 ≤ p.2 && p.2 < r.height

def index (r : Raster) (p : Point) : Nat :=
  p.2.toNat * stride r.width + p.1.toNat / 8

def bit (p : Point) : UInt8 :=
  0x80 >>> UInt8.ofNat (p.1.toNat % 8)

def get (r : Raster) (p : Point) : Bool :=
  r.contains p && (r.bits[r.index p]?.getD 0) &&& bit p != 0

def plot (r : Raster) (p : Point) (mode : Mode) : Raster :=
  if r.contains p then { r with bits := r.bits.modify (r.index p) (mode.combine · (bit p)) } else r

def distinct (points : List Point) : List Point :=
  (points.mergeSort fun p q => p.1 < q.1 || p.1 == q.1 && p.2 ≤ q.2).eraseReps

def draw (r : Raster) (points : List Point) (mode : Mode) : Raster :=
  (distinct points).foldl (·.plot · mode) r

def clear (r : Raster) : Raster :=
  { r with bits := Array.replicate r.bits.size 0 }

def interval (low high : Int) : List Int :=
  (List.range (high - low + 1).toNat).map fun (i : Nat) => low + i

def visible (low high : Int) (length : Nat) : List Int :=
  interval (max low 0) (min high (length - 1))

def rows (r : Raster) : List String :=
  (List.range r.height).map fun (y : Nat) =>
    String.ofList ((List.range r.width).map fun (x : Nat) => if r.get (x, y) then '#' else '.')

def toAscii (r : Raster) : String :=
  r.rows.foldl (fun s row => s ++ row ++ "\n") ""

end Raster

structure Display where
  frames : Nat := 0
  width : Nat := 0
  height : Nat := 0
  screen : Array UInt8 := #[]

namespace Display

def present (d : Display) (r : Raster) : Display where
  frames := d.frames + 1
  width := r.width
  height := r.height
  screen := r.bits.extract 0 (Raster.size r.width r.height)

def raster (d : Display) : Raster where
  width := d.width
  height := d.height
  bits := d.screen

end Display
end Handheld
