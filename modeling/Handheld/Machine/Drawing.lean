import Handheld.Machine.Basic
import Handheld.Raster.Line
import Handheld.Raster.Shape

/-!
The library calls that draw. A drawing type chooses the mode by its low bits, and by a higher bit whether the
visible raster is drawn on or the one in the back.
-/
namespace Handheld.Machine

def planeStart (kind : Int32) : Nat :=
  if kind &&& 0x40 != 0 then Memory.graphStart.toNat else Memory.backStart.toNat

def plane (m : Machine) (kind : Int32) : Raster where
  width := m.header.width.toNat
  height := m.header.height.toNat
  bits := m.memory.region (planeStart kind) Memory.rasterSize

def draw (m : Machine) (kind : Int32) (f : Raster → Raster) : Machine :=
  let bits := (f (m.plane kind)).bits
  m.withMemory (·.setRegion (planeStart kind) bits)

def extent (n : Int32) : Nat :=
  min n.toInt.toNat 0xFFFF

def point (m : Machine) (x y kind : Int32) : Machine :=
  m.draw kind (·.plot (x.toInt, y.toInt) (Mode.ofType kind))

def line (m : Machine) (x0 y0 x1 y1 kind : Int32) : Machine :=
  m.draw kind (·.line x0.toInt y0.toInt x1.toInt y1.toInt (Mode.ofType kind))

def rect (m : Machine) (x0 y0 x1 y1 : Int32) (fill : Bool) (kind : Int32) : Machine :=
  m.draw kind (·.rect x0.toInt y0.toInt x1.toInt y1.toInt fill (Mode.ofType kind))

def ellipse (m : Machine) (x y rx ry : Int32) (fill : Bool) (kind : Int32) : Machine :=
  m.draw kind (·.ellipse x.toInt y.toInt rx.toInt ry.toInt fill (Mode.ofType kind))

def fill (m : Machine) (x y kind : Int32) : Machine :=
  m.draw kind (·.fill (x.toInt, y.toInt) (Mode.ofType kind))

def getPoint (m : Machine) (x y : Int32) : Int32 :=
  if (m.plane 0x40).get (x.toInt, y.toInt) then 1 else 0

def writeBlock (m : Machine) (x y width height kind src : Int32) : Machine :=
  let (w, h) := (extent width, extent height)
  let data := (m.slice src (min (Raster.size w h) 0x10000)).toArray
  m.draw kind (·.blit x.toInt y.toInt w h data (Mode.ofType kind))

def getBlock (m : Machine) (x y width height kind dst : Int32) : Machine :=
  let data := (m.plane kind).grab x.toInt y.toInt (extent width) (extent height) 0x10000
  let addr := m.address dst
  m.withMemory (·.copyIn addr data.toList)

def refresh (m : Machine) : Machine :=
  let back := m.memory.region Memory.backStart.toNat Memory.rasterSize
  let m := m.withMemory (·.setRegion Memory.graphStart.toNat back)
  { m with display := m.display.present (m.plane 0x40) }

def clearScreen (m : Machine) : Machine :=
  (m.withConsole fun console memory => console.clear memory).draw 0 (·.clear)

def codes : List UInt8 → List UInt16
  | a :: b :: bytes =>
    if 0x80 ≤ a then (a.toUInt16 <<< 8 ||| b.toUInt16) :: codes bytes
    else a.toUInt16 :: codes (b :: bytes)
  | [a] => [a.toUInt16]
  | [] => []

def drawCodes (font : Font) (size : FontSize) (y : Int) (mode : Mode) :
    Int → List UInt16 → Raster → Raster
  | _, [], r => r
  | x, code :: codes, r =>
    let r :=
      match font code size with
      | some glyph => r.blit x y glyph.width glyph.height glyph.bits mode
      | none => r
    let cell := size.cell.1 * if 0xFF < code then 2 else 1
    drawCodes font size y mode (x + cell) codes r

def textOut (m : Machine) (x y text kind : Int32) : Machine :=
  let size : FontSize := if kind &&& 0x80 != 0 then .large else .small
  m.draw kind (drawCodes m.font size y.toInt (Mode.ofType kind) x.toInt (codes (m.cstr text)))

end Handheld.Machine
