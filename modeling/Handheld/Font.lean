/-!
Fonts: where the bitmaps of characters come from. Codes below 0x100 are single-byte characters, larger codes
are characters of two bytes and twice the width.
-/
namespace Handheld

inductive FontSize where
  | large
  | small
  deriving DecidableEq, Repr

def FontSize.cell : FontSize → Nat × Nat
  | large => (8, 16)
  | small => (6, 12)

structure Glyph where
  width : Nat
  height : Nat
  bits : Array UInt8

abbrev Font := UInt16 → FontSize → Option Glyph

def Font.empty : Font := fun _ _ => none

end Handheld
