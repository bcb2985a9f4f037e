/-!
Classes of ASCII bytes. A byte above 0x7F is in none of them.
-/
namespace Handheld.Ascii

def isUpper (b : UInt8) : Bool := 0x41 ≤ b && b ≤ 0x5A

def isLower (b : UInt8) : Bool := 0x61 ≤ b && b ≤ 0x7A

def isAlpha (b : UInt8) : Bool := isUpper b || isLower b

def isDigit (b : UInt8) : Bool := 0x30 ≤ b && b ≤ 0x39

def isAlnum (b : UInt8) : Bool := isAlpha b || isDigit b

def isHexDigit (b : UInt8) : Bool :=
  isDigit b || (0x41 ≤ b && b ≤ 0x46) || (0x61 ≤ b && b ≤ 0x66)

def isControl (b : UInt8) : Bool := b < 0x20 || b == 0x7F

def isGraphic (b : UInt8) : Bool := 0x21 ≤ b && b ≤ 0x7E

def isPrintable (b : UInt8) : Bool := isGraphic b || b == 0x20

def isPunctuation (b : UInt8) : Bool := isGraphic b && !isAlnum b

def isSpace (b : UInt8) : Bool := b == 0x20 || (0x09 ≤ b && b ≤ 0x0D)

def toLower (b : UInt8) : UInt8 := if isUpper b then b + 0x20 else b

def toUpper (b : UInt8) : UInt8 := if isLower b then b - 0x20 else b

end Handheld.Ascii
