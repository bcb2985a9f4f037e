/-!
Numerals: digits of a radix, hexadecimal with a least number of digits, and readers that accept
digits only.
-/
namespace Handheld.Text

def digit? (radix : Nat) (c : Char) : Option Nat :=
  let value? :=
    if '0' ≤ c && c ≤ '9' then some (c.toNat - '0'.toNat)
    else if 'a' ≤ c && c ≤ 'f' then some (c.toNat - 'a'.toNat + 10)
    else if 'A' ≤ c && c ≤ 'F' then some (c.toNat - 'A'.toNat + 10)
    else none
  value?.filter (· < radix)

def numeralFrom (radix : Nat) (acc : Nat) : List Char → Option Nat
  | [] => some acc
  | c :: cs =>
    match digit? radix c with
    | some d => numeralFrom radix (acc * radix + d) cs
    | none => none

def numeral? (radix : Nat) (cs : List Char) : Option Nat :=
  if cs.isEmpty then none else numeralFrom radix 0 cs

def signed? (radix : Nat) : List Char → Option Int
  | '+' :: cs => (numeral? radix cs).map Int.ofNat
  | '-' :: cs => (numeral? radix cs).map fun n => -Int.ofNat n
  | cs => (numeral? radix cs).map Int.ofNat

def padLeft (width : Nat) (fill : Char) (cs : List Char) : List Char :=
  List.replicate (width - cs.length) fill ++ cs

def lowerHex (n : Nat) : List Char :=
  Nat.toDigits 16 n

def upperHex (n : Nat) : List Char :=
  (lowerHex n).map Char.toUpper

def hex (width n : Nat) : String :=
  String.ofList (padLeft width '0' (upperHex n))

end Handheld.Text
