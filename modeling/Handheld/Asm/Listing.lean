import Handheld.Asm.Line
import Handheld.Image

/-!
Disassembling. Code is swept from its start; a byte that is no instruction, or whose operands are cut off, is
listed alone. Jumps to the start of a listed instruction get a label.
-/
namespace Handheld.Asm

inductive Decoded where
  | op (opcode : Opcode) (operands : List UInt8)
  | sys (code : UInt8)
  | byte (b : UInt8)
  deriving DecidableEq, Repr

def valueOf : List UInt8 → Nat
  | [] => 0
  | b :: bytes => b.toNat + 256 * valueOf bytes

def operandLength? (layout : Layout) (mask : UInt8) (rest : List UInt8) : Option Nat :=
  let length? :=
    match layout with
    | .str => (rest.findIdx? (· == mask)).map (· + 1)
    | .data => if 4 ≤ rest.length then some (4 + valueOf ((rest.drop 2).take 2)) else none
    | layout => layout.fixedLength
  length?.filter (· ≤ rest.length)

def decode (mask : UInt8) (b : UInt8) (rest : List UInt8) : Decoded × Nat :=
  if Call.firstCode ≤ b then (.sys b, 0)
  else
    match Opcode.ofCode? b with
    | none => (.byte b, 0)
    | some opcode =>
      match operandLength? opcode.layout mask rest with
      | some n => (.op opcode (rest.take n), n)
      | none => (.byte b, 0)

def sweep (mask : UInt8) (offset : Nat) : List UInt8 → List (Nat × Decoded)
  | [] => []
  | b :: rest =>
    let (d, n) := decode mask b rest
    (offset, d) :: sweep mask (offset + 1 + n) (rest.drop n)
termination_by code => code.length
decreasing_by
  simp only [List.length_drop, List.length_cons]
  omega

def Decoded.target? : Decoded → Option Nat
  | .op opcode operands => if opcode.isJump then some (valueOf operands) else none
  | _ => none

def targetArg (boundaries : List Nat) (target : Nat) : Arg :=
  if Header.length ≤ target && boundaries.contains (target - Header.length) then
    .label (.offset (target - Header.length))
  else
    .int (target - Header.length : Nat)

def operandArgs (mask : UInt8) (boundaries : List Nat) (layout : Layout) (operands : List UInt8) :
    List Arg :=
  match layout with
  | .none => []
  | .byte => [.int (valueOf operands)]
  | .word => [.int (UInt16.ofNat (valueOf operands)).toInt16.toInt]
  | .dword => [.int (UInt32.ofNat (valueOf operands)).toInt32.toInt]
  | .addr | .size => [.addr (valueOf operands)]
  | .target => [targetArg boundaries (valueOf operands)]
  | .frame => [.int (valueOf (operands.take 2)), .int (valueOf (operands.drop 2))]
  | .str => [.text (operands.dropLast.map (· ^^^ mask))]
  | .data => .addr (valueOf (operands.take 2)) :: (operands.drop 4).map fun b => .int b.toNat

def Decoded.line (mask : UInt8) (boundaries : List Nat) : Decoded → Line
  | .byte b => .data b
  | .sys code =>
    match Call.ofCode? code with
    | some c => .call c
    | none => .sys code
  | .op opcode operands => .op opcode (operandArgs mask boundaries opcode.layout operands)

def listingLines (mask : UInt8) (boundaries targets : List Nat) : List (Nat × Decoded) → Code
  | [] => []
  | (offset, d) :: rest =>
    let lines := d.line mask boundaries :: listingLines mask boundaries targets rest
    if targets.contains (offset + Header.length) then .label (.offset offset) :: lines else lines

def listing (mask : UInt8) (code : List UInt8) : Code :=
  let swept := sweep mask 0 code
  let boundaries := swept.map (·.1) ++ [code.length]
  listingLines mask boundaries (swept.filterMap (·.2.target?)) swept

def headerComment (h : Header) : String :=
  "; LAV version 0x" ++ Text.hex 2 h.version.toNat ++ " mask 0x" ++ Text.hex 2 h.mask.toNat ++
    s!" screen {h.width.toNat}x{h.height.toNat} entry 0x" ++ Text.hex 1 h.entry.toNat ++ "\n"

def disassemble (image : List UInt8) : Except LoadError String := do
  let header ← Header.parse image
  return headerComment header ++ (listing header.mask (image.drop Header.length)).render

end Handheld.Asm
