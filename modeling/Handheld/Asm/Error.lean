/-!
What can be wrong with assembly text.
-/
namespace Handheld.Asm

inductive ErrorKind where
  | unknownMnemonic (text : String)
  | badOperand (text : String)
  | missingOperand
  | duplicateLabel (label : String)
  | undefinedLabel (label : String)
  | imageTooLarge
  | geometry (width height : UInt16)
  deriving DecidableEq, Repr

/-- An error with its line, counted from one; line zero is the text as a whole. -/
structure Error where
  line : Nat
  kind : ErrorKind
  deriving DecidableEq, Repr

def ErrorKind.message : ErrorKind → String
  | unknownMnemonic text => "unknown mnemonic `" ++ text ++ "`"
  | badOperand text => "bad operand `" ++ text ++ "`"
  | missingOperand => "missing operand"
  | duplicateLabel label => "duplicate label `" ++ label ++ "`"
  | undefinedLabel label => "undefined label `" ++ label ++ "`"
  | imageTooLarge => "image exceeds 24-bit address space"
  | geometry width height => s!"screen {width.toNat}x{height.toNat} is not a header geometry"

def Error.message (e : Error) : String :=
  e.kind.message ++ s!" at line {e.line}"

end Handheld.Asm
