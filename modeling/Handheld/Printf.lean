import Handheld.Ascii
import Handheld.Text.Numeral

/-!
Formatted text: literal bytes and directives with a flag `-` or `0`, a width, and a conversion. Every field is
as long as its width asks for, or as long as its text.
-/
namespace Handheld.Printf

def ascii (cs : List Char) : List UInt8 :=
  cs.map fun c => UInt8.ofNat c.toNat

def convert? (conv : UInt8) (string : Int32 → List UInt8) (v : Int32) : Option (List UInt8) :=
  match Char.ofNat conv.toNat with
  | 'd' | 'i' => some (ascii (toString v.toInt).toList)
  | 'u' => some (ascii (toString v.toUInt32.toNat).toList)
  | 'x' => some (ascii (Text.lowerHex v.toUInt32.toNat))
  | 'X' => some (ascii (Text.upperHex v.toUInt32.toNat))
  | 'c' => some [v.toUInt32.toUInt8]
  | 's' => some (string v)
  | _ => none

def isNumeric (conv : UInt8) : Bool :=
  "diuxX".toList.contains (Char.ofNat conv.toNat)

structure Field where
  left : Bool
  zero : Bool
  width : Nat

def Field.fill (f : Field) (numeric : Bool) (text : List UInt8) : List UInt8 :=
  let pad := f.width - text.length
  if f.left then
    text ++ List.replicate pad 0x20
  else if f.zero && numeric then
    match text with
    | 0x2D :: digits => 0x2D :: List.replicate pad 0x30 ++ digits
    | digits => List.replicate pad 0x30 ++ digits
  else
    List.replicate pad 0x20 ++ text

def isFlag (b : UInt8) : Bool := b == 0x2D || b == 0x30

/-- What a directive is made of behind its `%`, and how many bytes stand before its conversion. -/
structure Directive where
  flags : List UInt8
  digits : List UInt8
  longs : List UInt8

def directive (fmt : List UInt8) : Directive :=
  let flags := fmt.takeWhile isFlag
  let digits := (fmt.drop flags.length).takeWhile Ascii.isDigit
  let longs := (fmt.drop (flags.length + digits.length)).takeWhile (· == 0x6C)
  { flags := flags, digits := digits, longs := longs }

def Directive.length (d : Directive) : Nat :=
  d.flags.length + d.digits.length + d.longs.length

def Directive.field (d : Directive) : Field where
  left := d.flags.contains 0x2D
  zero := d.flags.contains 0x30
  width := d.digits.foldl (fun n b => n * 10 + (b.toNat - 0x30)) 0

/--
Formats arguments. A conversion takes the next argument, or zero when there is none; `string` reads the
text an argument points to. A directive that is cut off ends the text.
-/
def format (string : Int32 → List UInt8) (fmt : List UInt8) (args : List Int32) : List UInt8 :=
  match fmt with
  | [] => []
  | c :: rest =>
    if c != 0x25 then
      c :: format string rest args
    else
      let d := directive rest
      match _h : rest.drop d.length with
      | [] => []
      | conv :: rest' =>
        match convert? conv string (args.headD 0) with
        | some text => d.field.fill (isNumeric conv) text ++ format string rest' args.tail
        | none =>
          let text := if conv == 0x25 then [0x25] else [0x25, conv]
          d.field.fill false text ++ format string rest' args
termination_by fmt.length
decreasing_by
  · simp
  all_goals
    have := congrArg List.length _h
    simp only [List.length_drop, List.length_cons] at this ⊢
    omega

end Handheld.Printf
