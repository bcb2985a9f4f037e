/-!
Arithmetic on the machine's 32-bit values. Every operation is total: it wraps, division and remainder
by zero give zero, shifts use the low five bits of their count, and truth is all ones.
-/
namespace Handheld

def truth (b : Bool) : Int32 :=
  if b then -1 else 0

inductive Binary where
  | add | sub | mul | div | mod
  | and | or | xor | shl | shr
  | eq | ne | lt | gt | le | ge
  deriving DecidableEq, Repr

namespace Binary

def apply : Binary → Int32 → Int32 → Int32
  | add, a, b => a + b
  | sub, a, b => a - b
  | mul, a, b => a * b
  | div, a, b => if b == 0 then 0 else a / b
  | mod, a, b => if b == 0 then 0 else a % b
  | and, a, b => a &&& b
  | or, a, b => a ||| b
  | xor, a, b => a ^^^ b
  | shl, a, b => a <<< (b &&& 31)
  | shr, a, b => a >>> (b &&& 31)
  | eq, a, b => truth (a == b)
  | ne, a, b => truth (a != b)
  | lt, a, b => truth (a < b)
  | gt, a, b => truth (a > b)
  | le, a, b => truth (a ≤ b)
  | ge, a, b => truth (a ≥ b)

end Binary
end Handheld
