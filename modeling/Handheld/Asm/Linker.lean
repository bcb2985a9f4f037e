import Handheld.Asm.Error

/-!
The linker: a table of labels, and the operands that wait for them. Labels hold offsets into the code;
an operand gets the offset plus a bias.
-/
namespace Handheld.Asm

structure Fixup where
  position : Nat
  label : String
  width : Nat := 3
  line : Nat
  deriving DecidableEq, Repr

structure Linker where
  bias : Nat
  labels : List (String × Nat) := []
  fixups : List Fixup := []

namespace Linker

def get? (l : Linker) (label : String) : Option Nat :=
  l.labels.lookup label

def define (label : String) (offset line : Nat) : EStateM Error Linker Unit := fun l =>
  let l' := { l with labels := (label, offset) :: l.labels }
  match l.get? label with
  | some _ => .error ⟨line, .duplicateLabel label⟩ l'
  | none => .ok () l'

def await (l : Linker) (fixup : Fixup) : Linker :=
  { l with fixups := l.fixups ++ [fixup] }

def patch (code : Array UInt8) (position : Nat) : Nat → Nat → Array UInt8
  | 0, _ => code
  | width + 1, value =>
    patch (code.setIfInBounds position (UInt8.ofNat value)) (position + 1) width (value / 256)

def resolve (l : Linker) : List Fixup → EStateM Error (Array UInt8) Unit
  | [] => pure ()
  | f :: fixups => do
    match l.get? f.label with
    | none => throw ⟨f.line, .undefinedLabel f.label⟩
    | some offset =>
      modify fun code => patch code f.position f.width (offset + l.bias)
      l.resolve fixups

def link (l : Linker) (code : Array UInt8) : EStateM.Result Error (Array UInt8) Unit × Linker :=
  (l.resolve l.fixups code, { l with fixups := [] })

def clear (l : Linker) : Linker :=
  { l with labels := [], fixups := [] }

end Linker
end Handheld.Asm
