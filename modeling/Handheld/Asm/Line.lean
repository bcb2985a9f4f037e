import Handheld.Call
import Handheld.Opcode
import Handheld.Text.Quoted

/-!
Lines of assembly text, as the compiler and the disassembler write them: a label alone, or an instruction
behind four spaces.
-/
namespace Handheld.Asm

inductive Label where
  | fresh (n : Nat)
  | named (name : String)
  | offset (n : Nat)
  deriving DecidableEq, Repr

def Label.text : Label → String
  | fresh n => s!".L{n}"
  | named name => name
  | offset n => "L" ++ Text.hex 4 n

inductive Arg where
  | int (n : Int)
  | addr (n : Nat)
  | label (l : Label)
  | text (bytes : List UInt8)
  deriving DecidableEq, Repr

def Arg.render : Arg → String
  | int n => toString n
  | addr n => "0x" ++ Text.hex 4 n
  | label l => l.text
  | text bytes => Text.quote bytes

inductive Line where
  | label (l : Label)
  | op (opcode : Opcode) (args : List Arg := [])
  | call (c : Call)
  | sys (code : UInt8)
  | data (byte : UInt8)
  deriving DecidableEq, Repr

abbrev Code := List Line

def Line.render : Line → String
  | label l => l.text ++ ":"
  | op opcode args => args.foldl (fun s a => s ++ " " ++ a.render) ("    " ++ opcode.mnemonic)
  | call c => "    " ++ c.name
  | sys code => "    SYS 0x" ++ Text.hex 2 code.toNat
  | data byte => "    DB 0x" ++ Text.hex 2 byte.toNat

def Code.render (code : Code) : String :=
  code.foldl (fun s line => s ++ line.render ++ "\n") ""

end Handheld.Asm
