import Handheld.Asm.Error
import Handheld.Call
import Handheld.Opcode
import Handheld.Text.Blank
import Handheld.Text.Lines
import Handheld.Text.Quoted

/-!
Statements of assembly text: a line holds a label, an instruction, both or nothing. Words are separated by
blanks and commas, quoted strings are kept whole, and a semicolon starts a comment.
-/
namespace Handheld.Asm

inductive Operand where
  | int (n : Int)
  | name (text : String)
  | str (bytes : List UInt8)
  deriving DecidableEq, Repr

def Operand.text : Operand → String
  | int n => toString n
  | name text => text
  | str bytes => Text.quote bytes

inductive Instr where
  | op (opcode : Opcode) (operands : List Operand)
  | call (code : UInt8)
  | bytes (data : List UInt8)
  deriving DecidableEq, Repr

structure Statement where
  line : Nat
  label : Option String := none
  instr : Option Instr := none
  deriving DecidableEq, Repr

inductive Quoting where
  | outside
  | inside
  | escaped
  deriving DecidableEq

def addWord (word : List Char) (words : List (List Char)) : List (List Char) :=
  if word.isEmpty then words else word.reverse :: words

/--
The words of a line, where `word` is the one begun, backwards. An open quote is an error that shows the
word so far.
-/
def wordsFrom (q : Quoting) (word : List Char) : List Char → Except (List Char) (List (List Char))
  | [] =>
    match q with
    | .outside => .ok (addWord word [])
    | _ => .error word.reverse
  | c :: cs =>
    match q with
    | .escaped => wordsFrom .inside (c :: word) cs
    | .inside =>
      if c == '\\' then wordsFrom .escaped (c :: word) cs
      else if c == '"' then wordsFrom .outside (c :: word) cs
      else wordsFrom .inside (c :: word) cs
    | .outside =>
      if c == ';' then .ok (addWord word [])
      else if c == '"' then wordsFrom .inside (c :: word) cs
      else if Text.isBlank c || c == ',' then (wordsFrom .outside [] cs).map (addWord word)
      else wordsFrom .outside (c :: word) cs

def words (line : List Char) : Except (List Char) (List (List Char)) :=
  wordsFrom .outside [] line

def inInt64 (n : Int) : Bool :=
  -0x8000000000000000 ≤ n && n < 0x8000000000000000

def magnitude? (cs : List Char) : Option Int :=
  match cs with
  | '0' :: 'x' :: ds => (Text.signed? 16 ds).filter inInt64
  | '0' :: 'X' :: ds => (Text.signed? 16 ds).filter inInt64
  | c :: _ => if c.isDigit then (Text.signed? 10 cs).filter inInt64 else none
  | [] => none

def integer? : List Char → Option Int
  | '-' :: cs => (magnitude? cs).map (-·)
  | cs => magnitude? cs

def operand (line : Nat) (word : List Char) : Except Error Operand :=
  if word.head? == some '"' then
    match Text.unquoteChars word with
    | some bytes => .ok (.str bytes)
    | none => .error ⟨line, .badOperand (String.ofList word)⟩
  else
    match integer? word with
    | some n => .ok (.int n)
    | none => .ok (.name (String.ofList word))

def badOperand (line : Nat) (operand : Operand) : Error :=
  ⟨line, .badOperand operand.text⟩

def ranged (line : Nat) (low high : Int) : Operand → Except Error Int
  | .int n => if low ≤ n && n ≤ high then .ok n else .error (badOperand line (.int n))
  | other => .error (badOperand line other)

def byteOf (n : Int) : UInt8 :=
  UInt8.ofInt n

def instruction (line : Nat) (mnemonic : String) (operands : List Operand) : Except Error Instr :=
  match Opcode.ofMnemonic? mnemonic with
  | some opcode => .ok (.op opcode operands)
  | none =>
    match Call.ofName? mnemonic with
    | some c =>
      match operands with
      | [] => .ok (.call c.code)
      | first :: _ => .error (badOperand line first)
    | none =>
      if mnemonic == "SYS" then
        match operands with
        | [operand] => (ranged line 0x80 0xFF operand).map fun n => .call (byteOf n)
        | _ => .error ⟨line, .missingOperand⟩
      else if mnemonic == "DB" then
        (operands.mapM (ranged line (-128) 255)).map fun ns => .bytes (ns.map byteOf)
      else
        .error ⟨line, .unknownMnemonic mnemonic⟩

def body (line : Nat) : List (List Char) → Except Error (Option Instr)
  | [] => .ok none
  | mnemonic :: operands => do
    let operands ← operands.mapM (operand line)
    return some (← instruction line (String.ofList mnemonic) operands)

def statement (line : Nat) (word : List Char) (words : List (List Char)) : Except Error Statement :=
  if word.head? != some '"' && word.getLast? == some ':' then
    if word.dropLast.isEmpty then
      .error ⟨line, .badOperand (String.ofList word)⟩
    else do
      let instr ← body line words
      return { line := line, label := some (String.ofList word.dropLast), instr := instr }
  else do
    let instr ← body line (word :: words)
    return { line := line, instr := instr }

def statementsFrom (line : Nat) : List String → Except Error (List Statement)
  | [] => .ok []
  | text :: texts =>
    match words text.toList with
    | .error word => .error ⟨line, .badOperand (String.ofList word)⟩
    | .ok [] => statementsFrom (line + 1) texts
    | .ok (word :: words) => do
      let s ← statement line word words
      return s :: (← statementsFrom (line + 1) texts)

def statements (source : String) : Except Error (List Statement) :=
  statementsFrom 1 (Text.lines source)

end Handheld.Asm
