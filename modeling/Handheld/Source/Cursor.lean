import Handheld.Source.Lexer

/-!
Reading from a text token by token. A text with a bad token can be read up to it; the error comes when a reader
looks at that token, and not before.
-/
namespace Handheld.Source

/-- The tokens of a text without its end, and its end: the end of file, or the error that is there instead. -/
def Lexer.tokens (r : Reader) : List Lexeme × Except Error Lexeme :=
  match _h : Lexer.next r with
  | .error e => ([], .error e)
  | .ok (l, r') =>
    if _hl : l.token = .eof then ([], .ok l)
    else
      let (ls, final) := Lexer.tokens r'
      (l :: ls, final)
termination_by r.rest.length
decreasing_by exact Lexer.next_length_lt _h _hl

def lex (source : String) : Except Error (List Lexeme) :=
  let (ls, final) := Lexer.tokens { rest := source.toList }
  final.map fun l => ls ++ [l]

structure Cursor where
  rest : List Lexeme
  final : Except Error Lexeme

abbrev Read (α : Type) := EStateM Error Cursor α

namespace Cursor

def ofSource (source : String) : Cursor :=
  let (ls, final) := Lexer.tokens { rest := source.toList }
  { rest := ls, final := final }

def eof (c : Cursor) : Lexeme :=
  match c.final with
  | .ok l => l
  | .error e => { token := .eof, span := e.span }

def head (c : Cursor) : Lexeme :=
  c.rest.headD c.eof

def tail (c : Cursor) : Cursor :=
  { c with rest := c.rest.tail }

def halt (c : Cursor) : Cursor :=
  { c with rest := [] }

end Cursor

namespace Read

def peek : Read Lexeme := fun c =>
  match c.rest, c.final with
  | l :: _, _ => .ok l c
  | [], .ok l => .ok l c
  | [], .error e => .error e c

def next : Read Lexeme := do
  let l ← peek
  modify Cursor.tail
  return l

def eat (t : Token) : Read Bool := do
  if (← peek).token == t then
    modify Cursor.tail
    return true
  else
    return false

def expect (t : Token) : Read Lexeme := do
  let l ← next
  if l.token == t then return l
  else throw (l.unexpected (Problem.ticked t.text))

def ident : Read (String × Span) := do
  let l ← next
  match l.token with
  | .ident name => return (name, l.span)
  | _ => throw (l.unexpected "a name")

def restOfLine (line : Nat) : Read (List Lexeme) := do
  let c ← get
  let here := c.rest.takeWhile (·.span.line == line)
  set { c with rest := c.rest.drop here.length }
  let _ ← peek
  return here

def skipBraces : Nat → List Lexeme → Option (List Lexeme)
  | 0, ls => some ls
  | _ + 1, [] => none
  | depth + 1, l :: ls =>
    if l.token == .punct .lBrace then skipBraces (depth + 2) ls
    else if l.token == .punct .rBrace then skipBraces depth ls
    else skipBraces (depth + 1) ls

def skipBlock : Read Unit := do
  let opened ← expect (.punct .lBrace)
  let c ← get
  match skipBraces 1 c.rest with
  | some rest => set { c with rest := rest }
  | none =>
    set c.halt
    let _ ← peek
    throw (opened.unexpected ("a matching " ++ Problem.ticked "\x7d"))

def skipToSemicolon (depth : Int) : List Lexeme → Option (List Lexeme)
  | [] => none
  | l :: ls =>
    if l.token == .punct .lBrace then skipToSemicolon (depth + 1) ls
    else if l.token == .punct .rBrace then skipToSemicolon (depth - 1) ls
    else if l.token == .punct .semicolon && depth == 0 then some ls
    else skipToSemicolon depth ls

def skipStatement : Read Unit := do
  let c ← get
  match skipToSemicolon 0 c.rest with
  | some rest => set { c with rest := rest }
  | none =>
    set c.halt
    let l ← peek
    throw (l.unexpected (Problem.ticked ";"))

end Read
end Handheld.Source
