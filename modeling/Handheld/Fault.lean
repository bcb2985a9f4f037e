import Handheld.Text.Numeral

/-!
Faults: what stops a running program. Division by zero is none of them.
-/
namespace Handheld

inductive Fault where
  | invalidOpcode (code : UInt8)
  | stackOverflow
  | stackUnderflow
  | frameOverflow
  | imageOverrun (pc : Nat)
  | notLoaded
  deriving DecidableEq, Repr, Inhabited

namespace Fault

def message : Fault → String
  | invalidOpcode code => "invalid opcode 0x" ++ Text.hex 2 code.toNat
  | stackOverflow => "stack overflow"
  | stackUnderflow => "stack underflow"
  | frameOverflow => "frame overflow"
  | imageOverrun pc => "execution ran past end of image at 0x" ++ Text.hex 6 pc
  | notLoaded => "no image loaded"

end Fault
end Handheld
