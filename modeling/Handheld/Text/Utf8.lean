/-!
UTF-8: writing characters as bytes, and reading bytes as characters where every maximal ill-formed
run counts as one unreadable piece.
-/
namespace Handheld.Text.Utf8

def encode (cs : List Char) : List UInt8 :=
  cs.flatMap String.utf8EncodeChar

def encodeString (s : String) : List UInt8 :=
  encode s.toList

def replacement : Char := '�'

def isTail (b : UInt8) : Bool :=
  0x80 ≤ b && b ≤ 0xBF

/--
For the first byte of a longer character: how many bytes follow, the payload bits of the first byte,
and the range of the second byte.
-/
def lead (b : UInt8) : Option (Nat × Nat × UInt8 × UInt8) :=
  if 0xC2 ≤ b && b ≤ 0xDF then some (1, b.toNat - 0xC0, 0x80, 0xBF)
  else if b == 0xE0 then some (2, 0, 0xA0, 0xBF)
  else if b == 0xED then some (2, 0xD, 0x80, 0x9F)
  else if 0xE1 ≤ b && b ≤ 0xEF then some (2, b.toNat - 0xE0, 0x80, 0xBF)
  else if b == 0xF0 then some (3, 0, 0x90, 0xBF)
  else if 0xF1 ≤ b && b ≤ 0xF3 then some (3, b.toNat - 0xF0, 0x80, 0xBF)
  else if b == 0xF4 then some (3, 4, 0x80, 0x8F)
  else none

def tails : Nat → Nat → List UInt8 → Option Char × List UInt8
  | 0, acc, rest => (some (Char.ofNat acc), rest)
  | _ + 1, _, [] => (none, [])
  | n + 1, acc, b :: rest =>
    if isTail b then tails n (acc * 64 + (b.toNat - 0x80)) rest else (none, b :: rest)

/--
Reads the character that starts with `b`, or the maximal ill-formed piece there (`none`), and
returns the bytes behind it.
-/
def next (b : UInt8) (rest : List UInt8) : Option Char × List UInt8 :=
  if b < 0x80 then (some (Char.ofNat b.toNat), rest)
  else
    match lead b, rest with
    | some (n, bits, low, high), second :: rest' =>
      if low ≤ second && second ≤ high then
        tails (n - 1) (bits * 64 + (second.toNat - 0x80)) rest'
      else
        (none, rest)
    | _, _ => (none, rest)

theorem tails_length_le (n acc : Nat) (rest : List UInt8) : (tails n acc rest).2.length ≤ rest.length := by
  fun_induction tails n acc rest with
  | case1 => simp
  | case2 => simp
  | case3 n acc b rest h ih => simp only [List.length_cons]; omega
  | case4 => simp

theorem next_length_le (b : UInt8) (rest : List UInt8) : (next b rest).2.length ≤ rest.length := by
  unfold next
  split
  · simp
  · split
    · split
      · rename_i rest' _
        have := tails_length_le
        simp only [List.length_cons]
        exact Nat.le_succ_of_le (this _ _ _)
      · simp
    · simp

def pieces : List UInt8 → List (Option Char)
  | [] => []
  | b :: rest => (next b rest).1 :: pieces (next b rest).2
termination_by bytes => bytes.length
decreasing_by
  have := next_length_le b rest
  simp only [List.length_cons]
  omega

def decodeLossy (bytes : List UInt8) : String :=
  String.ofList ((pieces bytes).map (·.getD replacement))

def decode? (bytes : List UInt8) : Option String :=
  ((pieces bytes).mapM id).map String.ofList

end Handheld.Text.Utf8
