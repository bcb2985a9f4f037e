/-!
Access widths: how many bytes an access moves, and the value that is left of a number stored with it.
-/
namespace Handheld

inductive Width where
  | byte
  | word
  | dword
  deriving DecidableEq, Repr, Inhabited

namespace Width

def bytes : Width → Nat
  | byte => 1
  | word => 2
  | dword => 4

/-- Bytes are unsigned, words are signed, and dwords hold every value. -/
def normalize : Width → Int32 → Int32
  | byte, v => v &&& 0xFF
  | word, v => v.toInt16.toInt32
  | dword, v => v

def letter : Width → String
  | byte => "B"
  | word => "W"
  | dword => "D"

def code : Width → UInt32
  | byte => 1
  | word => 2
  | dword => 3

/-- Only the two low bits of a code count, and a code without a width of its own means a byte. -/
def ofCode (code : UInt32) : Width :=
  if code &&& 3 == 2 then word else if code &&& 3 == 3 then dword else byte

end Width
end Handheld
