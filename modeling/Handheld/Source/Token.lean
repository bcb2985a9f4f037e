import Handheld.Arith
import Handheld.Text.Utf8

/-!
Tokens of the source language, with the text each stands for.
-/
namespace Handheld.Source

inductive Word where
  | void | char | int | long
  | ifWord | elseWord | whileWord | doWord | forWord
  | switch | case | default
  | breakWord | continueWord | returnWord
  deriving DecidableEq, Repr

namespace Word

def all : List Word :=
  [void, char, int, long, ifWord, elseWord, whileWord, doWord, forWord, switch, case, default,
    breakWord, continueWord, returnWord]

def text : Word → String
  | void => "void"
  | char => "char"
  | int => "int"
  | long => "long"
  | ifWord => "if"
  | elseWord => "else"
  | whileWord => "while"
  | doWord => "do"
  | forWord => "for"
  | switch => "switch"
  | case => "case"
  | default => "default"
  | breakWord => "break"
  | continueWord => "continue"
  | returnWord => "return"

def ofText? (s : String) : Option Word :=
  all.find? (·.text == s)

def isType : Word → Bool
  | void | char | int | long => true
  | _ => false

end Word

inductive Operator where
  | binary (op : Binary)
  | tilde
  | bang
  | andAnd
  | orOr
  | assign
  | update (op : Binary)
  | inc
  | dec
  deriving DecidableEq, Repr

namespace Operator

def table : List (List Char × Operator) :=
  [(['<', '<', '='], update .shl), (['>', '>', '='], update .shr),
    (['&', '&'], andAnd), (['|', '|'], orOr),
    (['=', '='], binary .eq), (['!', '='], binary .ne),
    (['<', '='], binary .le), (['>', '='], binary .ge),
    (['<', '<'], binary .shl), (['>', '>'], binary .shr),
    (['+', '='], update .add), (['-', '='], update .sub), (['*', '='], update .mul),
    (['/', '='], update .div), (['%', '='], update .mod), (['&', '='], update .and),
    (['|', '='], update .or), (['^', '='], update .xor),
    (['+', '+'], inc), (['-', '-'], dec),
    (['+'], binary .add), (['-'], binary .sub), (['*'], binary .mul), (['/'], binary .div),
    (['%'], binary .mod), (['&'], binary .and), (['|'], binary .or), (['^'], binary .xor),
    (['~'], tilde), (['!'], bang), (['<'], binary .lt), (['>'], binary .gt), (['='], assign)]

def text (op : Operator) : String :=
  match table.find? (·.2 == op) with
  | some (cs, _) => String.ofList cs
  | none => "?"

def ofChars? (cs : List Char) : Option Operator :=
  (table.find? (·.1 == cs)).map (·.2)

def precedence : Operator → Option Nat
  | orOr => some 1
  | andAnd => some 2
  | binary .or => some 3
  | binary .xor => some 4
  | binary .and => some 5
  | binary .eq | binary .ne => some 6
  | binary .lt | binary .gt | binary .le | binary .ge => some 7
  | binary .shl | binary .shr => some 8
  | binary .add | binary .sub => some 9
  | binary .mul | binary .div | binary .mod => some 10
  | _ => none

def compound : Operator → Option Binary
  | update op => some op
  | _ => none

def isAssignment (op : Operator) : Bool :=
  op == assign || op.compound.isSome

def apply : Operator → Int32 → Int32 → Int32
  | binary op, a, b => op.apply a b
  | andAnd, a, b => truth (a != 0 && b != 0)
  | orOr, a, b => truth (a != 0 || b != 0)
  | _, _, _ => 0

end Operator

inductive Punct where
  | lParen | rParen | lBracket | rBracket | lBrace | rBrace
  | comma | semicolon | colon | question | hash
  deriving DecidableEq, Repr

namespace Punct

def all : List Punct :=
  [lParen, rParen, lBracket, rBracket, lBrace, rBrace, comma, semicolon, colon, question, hash]

def char : Punct → Char
  | lParen => '('
  | rParen => ')'
  | lBracket => '['
  | rBracket => ']'
  | lBrace => '\x7b'
  | rBrace => '\x7d'
  | comma => ','
  | semicolon => ';'
  | colon => ':'
  | question => '?'
  | hash => '#'

def ofChar? (c : Char) : Option Punct :=
  all.find? (·.char == c)

end Punct

inductive Token where
  | int (n : Int32)
  | str (bytes : List UInt8)
  | ident (name : String)
  | word (w : Word)
  | op (op : Operator)
  | punct (p : Punct)
  | eof
  deriving DecidableEq, Repr

namespace Token

def text : Token → String
  | int n => toString n.toInt
  | str bytes => "\"" ++ Text.Utf8.decodeLossy bytes ++ "\""
  | ident name => name
  | word w => w.text
  | op o => o.text
  | punct p => p.char.toString
  | eof => "end of file"

end Token

/-- A place in the text: a line, counted from one, and a range of its characters, counted from zero. -/
structure Span where
  line : Nat := 0
  start : Nat := 0
  stop : Nat := 0
  deriving DecidableEq, Repr

structure Lexeme where
  token : Token
  span : Span
  deriving DecidableEq, Repr

end Handheld.Source
