import Handheld.Asm.Linker
import Handheld.Asm.Statement
import Handheld.Image

/-!
Assembling. The size of every instruction is known before its bytes are, so labels are placed first;
then the bytes are written, and jumps that name a label are patched.
-/
namespace Handheld.Asm

structure Options where
  mask : UInt8 := 0
  width : UInt16 := 160
  height : UInt16 := 80
  deriving DecidableEq, Repr

def Options.header (o : Options) : Header where
  mask := o.mask
  width := o.width
  height := o.height

def payload (bytes : List UInt8) : List UInt8 :=
  bytes.takeWhile (· != 0)

def littleEndian : Nat → Int → List UInt8
  | 0, _ => []
  | n + 1, value => byteOf value :: littleEndian n (value / 256)

namespace Instr

def operandSize (layout : Layout) (operands : List Operand) : Nat :=
  match layout with
  | .str =>
    match operands with
    | .str text :: _ => (payload text).length + 1
    | _ => 1
  | .data => 4 + (operands.length - 1)
  | layout => layout.fixedLength.getD 0

def size : Instr → Nat
  | op opcode operands => 1 + operandSize opcode.layout operands
  | call _ => 1
  | bytes data => data.length

/-- The bytes of an instruction. The operand of a jump to a label is zero, and the label is named. -/
structure Encoding where
  bytes : List UInt8
  label : Option String := none

def first (line : Nat) : List Operand → Except Error Operand
  | [] => .error ⟨line, .missingOperand⟩
  | operand :: _ => .ok operand

def encodeInt (line : Nat) (low high : Int) (n : Nat) (operands : List Operand) :
    Except Error Encoding := do
  let value ← ranged line low high (← first line operands)
  return { bytes := littleEndian n value }

def encodeTarget (line : Nat) (operands : List Operand) : Except Error Encoding := do
  match ← first line operands with
  | .name label => return { bytes := [0, 0, 0], label := some label }
  | operand =>
    let value ← ranged line 0 (0xFFFFFF - Header.length) operand
    return { bytes := littleEndian 3 (value + Header.length) }

def encodeFrame (line : Nat) (operands : List Operand) : Except Error Encoding := do
  let frame ← ranged line 0 65535 (← first line operands)
  let count ← ranged line 0 255 (← first line operands.tail)
  return { bytes := littleEndian 2 frame ++ littleEndian 1 count }

def encodeStr (mask : UInt8) (line : Nat) (operands : List Operand) : Except Error Encoding := do
  match ← first line operands with
  | .str text => return { bytes := (payload text).map (· ^^^ mask) ++ [mask] }
  | operand => throw (badOperand line operand)

def encodeData (line : Nat) (operands : List Operand) : Except Error Encoding := do
  let addr ← ranged line 0 65535 (← first line operands)
  let data := operands.tail
  if 0xFFFF < data.length then
    throw ⟨line, .imageTooLarge⟩
  let data ← data.mapM (ranged line (-128) 255)
  return { bytes := littleEndian 2 addr ++ littleEndian 2 data.length ++ data.map byteOf }

def operandCount (layout : Layout) (operands : List Operand) : Nat :=
  match layout with
  | .none => 0
  | .frame => 2
  | .data => operands.length
  | _ => 1

def encodeOperands (mask : UInt8) (line : Nat) (layout : Layout) (operands : List Operand) :
    Except Error Encoding :=
  match layout with
  | .none => .ok { bytes := [] }
  | .byte => encodeInt line (-128) 255 1 operands
  | .word => encodeInt line (-32768) 65535 2 operands
  | .dword => encodeInt line (-2147483648) 4294967295 4 operands
  | .addr | .size => encodeInt line 0 65535 2 operands
  | .target => encodeTarget line operands
  | .frame => encodeFrame line operands
  | .str => encodeStr mask line operands
  | .data => encodeData line operands

def encode (mask : UInt8) (line : Nat) : Instr → Except Error Encoding
  | call code => .ok { bytes := [code] }
  | bytes data => .ok { bytes := data }
  | op opcode operands => do
    let e ← encodeOperands mask line opcode.layout operands
    match operands.drop (operandCount opcode.layout operands) with
    | extra :: _ => throw (badOperand line extra)
    | [] => return { e with bytes := opcode.code :: e.bytes }

end Instr

def Statement.size (s : Statement) : Nat :=
  (s.instr.map Instr.size).getD 0

def codeSize (statements : List Statement) : Nat :=
  statements.foldl (fun n s => n + s.size) 0

def place (offset : Nat) : List Statement → EStateM Error Linker Unit
  | [] => pure ()
  | s :: statements => do
    if let some label := s.label then
      Linker.define label offset s.line
    place (offset + s.size) statements

def emit (mask : UInt8) (s : Statement) (code : Array UInt8) (linker : Linker) :
    Except Error (Array UInt8 × Linker) :=
  match s.instr with
  | none => .ok (code, linker)
  | some instr => do
    let e ← instr.encode mask s.line
    let linker :=
      match e.label with
      | some label => linker.await { position := code.size + 1, label := label, line := s.line }
      | none => linker
    return (code ++ e.bytes.toArray, linker)

def emitAll (mask : UInt8) : List Statement → Array UInt8 → Linker → Except Error (Array UInt8 × Linker)
  | [], code, linker => .ok (code, linker)
  | s :: statements, code, linker => do
    let (code, linker) ← emit mask s code linker
    emitAll mask statements code linker

def assembleStatements (header : Header) (statements : List Statement) :
    Except Error (Array UInt8) := do
  match place 0 statements { bias := Header.length } with
  | .error e _ => throw e
  | .ok () linker =>
    if 0xFFFFFF < Header.length + codeSize statements then
      throw ⟨0, .imageTooLarge⟩
    let (code, linker) ← emitAll header.mask statements header.toBytes.toArray linker
    match (linker.link code).1 with
    | .error e _ => throw e
    | .ok () image => return image

def assemble (source : String) (options : Options) : Except Error (Array UInt8) := do
  let header := options.header
  if !header.geometryEncodable then
    throw ⟨0, .geometry header.width header.height⟩
  assembleStatements header (← statements source)

end Handheld.Asm
