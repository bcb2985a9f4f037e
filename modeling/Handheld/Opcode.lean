import Handheld.Arith
import Handheld.Width

/-!
The instruction set: which instructions there are, the byte and the mnemonic of each, and the layout of
the operand bytes behind it. Bytes from 0x80 on are library calls.
-/
namespace Handheld

inductive Layout where
  | none
  | byte
  | word
  | dword
  | addr
  | size
  | target
  | frame
  | str
  | data
  deriving DecidableEq, Repr

def Layout.fixedLength : Layout → Option Nat
  | none => some 0
  | byte => some 1
  | word | addr | size => some 2
  | target | frame => some 3
  | dword => some 4
  | str | data => Option.none

inductive Access where
  | load
  | indexed
  | effective
  | handle
  deriving DecidableEq, Repr

inductive Opcode where
  | nop
  | push (width : Width)
  | access (access : Access) (width : Width) (relative : Bool)
  | pushStr
  | load
  | store
  | pop
  | dup
  | neg
  /-- Adds one to the object of a handle or takes one off; the result is the new value or the old. -/
  | step (up before : Bool)
  | binary (op : Binary)
  | not
  | lnot
  | jmp
  | jz
  | jnz
  | call
  | func
  | ret
  | exit
  | space
  | init
  | cast (width : Width)
  deriving DecidableEq, Repr

namespace Opcode

def widths : List Width :=
  [.byte, .word, .dword]

def accesses (a : Access) : List Opcode :=
  widths.map (access a · false) ++ widths.map (access a · true)

def all : List Opcode :=
  [nop] ++ widths.map push ++ accesses .load ++ accesses .indexed ++ accesses .effective ++
    [pushStr, load, store, pop, dup, neg, step true true, step false true, step true false,
      step false false] ++
    [Binary.add, .sub, .mul, .div, .mod, .and, .or, .xor].map binary ++
    [not, binary .shl, binary .shr, lnot] ++
    [Binary.eq, .ne, .lt, .gt, .le, .ge].map binary ++
    [jmp, jz, jnz, call, func, ret, exit, space, init] ++ widths.map cast ++ accesses .handle

def widthIndex : Width → UInt8
  | .byte => 0
  | .word => 1
  | .dword => 2

def accessRow : Access → UInt8
  | .load => 0x04
  | .indexed => 0x0A
  | .effective => 0x10
  | .handle => 0x40

def binaryCode : Binary → UInt8
  | .add => 0x20
  | .sub => 0x21
  | .mul => 0x22
  | .div => 0x23
  | .mod => 0x24
  | .and => 0x25
  | .or => 0x26
  | .xor => 0x27
  | .shl => 0x29
  | .shr => 0x2A
  | .eq => 0x2E
  | .ne => 0x2F
  | .lt => 0x30
  | .gt => 0x31
  | .le => 0x32
  | .ge => 0x33

def code : Opcode → UInt8
  | nop => 0x00
  | push w => 0x01 + widthIndex w
  | access a w relative => accessRow a + (if relative then 3 else 0) + widthIndex w
  | pushStr => 0x16
  | load => 0x17
  | store => 0x18
  | pop => 0x19
  | dup => 0x1A
  | neg => 0x1B
  | step up before => 0x1C + (if up then 0 else 1) + (if before then 0 else 2)
  | binary op => binaryCode op
  | not => 0x28
  | lnot => 0x2B
  | jmp => 0x34
  | jz => 0x35
  | jnz => 0x36
  | call => 0x37
  | func => 0x38
  | ret => 0x39
  | exit => 0x3A
  | space => 0x3B
  | init => 0x3C
  | cast w => 0x3D + widthIndex w

def byCode : Array (Option Opcode) :=
  (Array.range 0x80).map fun n => all.find? (·.code == UInt8.ofNat n)

def ofCode? (code : UInt8) : Option Opcode :=
  (byCode[code.toNat]?).join

def accessName : Access → String
  | .load => "LD"
  | .indexed => "LDI"
  | .effective => "LEA"
  | .handle => "ADDR"

def binaryName : Binary → String
  | .add => "ADD"
  | .sub => "SUB"
  | .mul => "MUL"
  | .div => "DIV"
  | .mod => "MOD"
  | .and => "AND"
  | .or => "OR"
  | .xor => "XOR"
  | .shl => "SHL"
  | .shr => "SHR"
  | .eq => "EQ"
  | .ne => "NE"
  | .lt => "LT"
  | .gt => "GT"
  | .le => "LE"
  | .ge => "GE"

def mnemonic : Opcode → String
  | nop => "NOP"
  | push w => "PUSH_" ++ w.letter
  | access a w relative => accessName a ++ "_" ++ (if relative then "L" else "") ++ w.letter
  | pushStr => "PUSH_STR"
  | load => "LOAD"
  | store => "STORE"
  | pop => "POP"
  | dup => "DUP"
  | neg => "NEG"
  | step up before => (if up then "INC" else "DEC") ++ (if before then "_PRE" else "_POST")
  | binary op => binaryName op
  | not => "NOT"
  | lnot => "LNOT"
  | jmp => "JMP"
  | jz => "JZ"
  | jnz => "JNZ"
  | call => "CALL"
  | func => "FUNC"
  | ret => "RET"
  | exit => "EXIT"
  | space => "SPACE"
  | init => "INIT"
  | cast w => "CAST_" ++ w.letter

def ofMnemonic? (s : String) : Option Opcode :=
  all.find? (·.mnemonic == s)

def layout : Opcode → Layout
  | push .byte => .byte
  | push .word => .word
  | push .dword => .dword
  | access _ _ _ => .addr
  | pushStr => .str
  | jmp | jz | jnz | call => .target
  | func => .frame
  | space => .size
  | init => .data
  | _ => .none

def isJump (op : Opcode) : Bool :=
  op.layout == .target

def mode : Opcode → Option (Width × Bool)
  | access _ w relative => some (w, relative)
  | cast w => some (w, false)
  | _ => none

end Opcode
end Handheld
