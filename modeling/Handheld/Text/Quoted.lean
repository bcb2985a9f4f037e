import Handheld.Text.Numeral
import Handheld.Text.Utf8

/-!
Quoted byte strings of assembly text: printable ASCII stands for itself, everything else is escaped.
Reading a quoted string back gives the bytes that were written.
-/
namespace Handheld.Text

def quoteByte (b : UInt8) : List Char :=
  if b == 0x0A then ['\\', 'n']
  else if b == 0x0D then ['\\', 'r']
  else if b == 0x09 then ['\\', 't']
  else if b == 0x5C then ['\\', '\\']
  else if b == 0x22 then ['\\', '"']
  else if 0x20 ≤ b && b ≤ 0x7E then [Char.ofNat b.toNat]
  else ['\\', 'x'] ++ padLeft 2 '0' (upperHex b.toNat)

def quoteChars (bytes : List UInt8) : List Char :=
  '"' :: bytes.flatMap quoteByte ++ ['"']

def quote (bytes : List UInt8) : String :=
  String.ofList (quoteChars bytes)

def escapedHex? (cs : List Char) : Option UInt8 :=
  (numeral? 16 (if cs.head? == some '+' then cs.tail else cs)).map UInt8.ofNat

def escapedLetter? (c : Char) : Option UInt8 :=
  match c with
  | 'n' => some 0x0A
  | 'r' => some 0x0D
  | 't' => some 0x09
  | '0' => some 0x00
  | '\\' => some 0x5C
  | '"' => some 0x22
  | '\'' => some 0x27
  | _ => none

def unescape : List Char → Option (List UInt8)
  | [] => some []
  | '\\' :: 'x' :: a :: b :: cs => do
    let byte ← escapedHex? [a, b]
    return byte :: (← unescape cs)
  | '\\' :: 'x' :: cs => (escapedHex? cs).map ([·])
  | '\\' :: c :: cs => do
    let byte ← escapedLetter? c
    return byte :: (← unescape cs)
  | ['\\'] => none
  | c :: cs => do
    return Utf8.encode [c] ++ (← unescape cs)

def unquoteChars : List Char → Option (List UInt8)
  | '"' :: cs => if cs.getLast? == some '"' then unescape cs.dropLast else none
  | _ => none

def unquote (s : String) : Option (List UInt8) :=
  unquoteChars s.toList

end Handheld.Text
