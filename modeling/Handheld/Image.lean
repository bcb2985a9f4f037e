import Handheld.Text.Numeral

/-!
Program images: a header of 16 bytes, then code. The header starts with a magic word; it holds the format
version, the mask of the string literals and, in the same three bytes, either an entry point or a screen
size in units of 16 pixels.
-/
namespace Handheld

inductive LoadError where
  | tooShort (size : Nat)
  | badMagic
  | geometry (width height : UInt16)
  | entry (entry : UInt32)
  deriving DecidableEq, Repr

def LoadError.message : LoadError → String
  | tooShort size => s!"image of {size} bytes is shorter than its header"
  | badMagic => "not a LAV image"
  | geometry width height => s!"screen {width.toNat}x{height.toNat} does not fit the framebuffer"
  | entry e => "entry point 0x" ++ Text.hex 6 e.toNat ++ " is outside the image"

structure Header where
  version : UInt8 := 0x12
  mask : UInt8 := 0
  entry : UInt32 := 16
  width : UInt16 := 160
  height : UInt16 := 80
  deriving DecidableEq, Repr

namespace Header

def magic : List UInt8 := [0x4C, 0x41, 0x56]

def length : Nat := 16

def defaultEntry : UInt32 := 16

instance : Inhabited Header := ⟨{}⟩

def geometryFits (h : Header) : Bool :=
  0 < h.width && 0 < h.height && h.width % 8 == 0 && h.width.toNat * h.height.toNat / 8 ≤ 2048

def geometryEncodable (h : Header) : Bool :=
  h.width % 16 == 0 && h.height % 16 == 0 && h.width / 16 ≤ 0xFF && h.height / 16 ≤ 0xFF &&
    h.geometryFits

/-- The bytes 8, 9 and 10. An entry point other than the default leaves no room for a screen size. -/
def place (h : Header) : UInt8 × UInt8 × UInt8 :=
  if h.entry != defaultEntry then
    (h.entry.toUInt8, (h.entry >>> 8).toUInt8, (h.entry >>> 16).toUInt8)
  else if (h.width, h.height) != (160, 80) then
    (0, (h.width / 16).toUInt8, (h.height / 16).toUInt8)
  else
    (0, 0, 0)

def toBytes (h : Header) : List UInt8 :=
  let (a, b, c) := h.place
  magic ++ [h.version, 0, h.mask, 0, 0, a, b, c, 0, 0, 0, 0, 0]

def withPlace (h : Header) (a b c : UInt8) : Header :=
  if a == 0 && (b != 0 || c != 0) then
    { h with width := b.toUInt16 * 16, height := c.toUInt16 * 16 }
  else if a == 0 then
    h
  else
    { h with entry := a.toUInt32 ||| b.toUInt32 <<< 8 ||| c.toUInt32 <<< 16 }

def check (h : Header) (size : Nat) : Except LoadError Header :=
  if !h.geometryFits then
    .error (.geometry h.width h.height)
  else if h.entry < defaultEntry || size ≤ h.entry.toNat then
    .error (.entry h.entry)
  else
    .ok h

def parse (image : List UInt8) : Except LoadError Header :=
  match image with
  | m0 :: m1 :: m2 :: version :: _ :: mask :: _ :: _ :: a :: b :: c :: _ :: _ :: _ :: _ :: _ :: _ =>
    if [m0, m1, m2] != magic then
      .error .badMagic
    else
      ({ version := version, mask := mask : Header }.withPlace a b c).check image.length
  | _ => .error (.tooShort image.length)

end Header
end Handheld
