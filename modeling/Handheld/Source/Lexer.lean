import Handheld.Source.Error
import Handheld.Text.Blank

/-!
Reading tokens. Blanks and comments separate them, words and numbers are as long as they can be, and
so are operators. Every token but the end of the text takes at least one character
(`next_length_lt`), so reading all of them ends.
-/
namespace Handheld.Source

structure Position where
  line : Nat := 1
  col : Nat := 0
  deriving DecidableEq, Repr

def Position.past (p : Position) (c : Char) : Position :=
  if c == '\n' then { line := p.line + 1, col := 0 } else { p with col := p.col + 1 }

def Position.right (p : Position) (n : Nat) : Position :=
  { p with col := p.col + n }

structure Reader where
  rest : List Char
  pos : Position := {}

namespace Lexer

def isIdentStart (c : Char) : Bool :=
  c.isAlpha || c == '_'

def isIdentChar (c : Char) : Bool :=
  c.isAlphanum || c == '_'

def errorHere (start : Nat) (p : Position) (problem : Problem) : Error :=
  problem.inSpan { line := p.line, start := start, stop := max p.col (start + 1) }

def skipLine (p : Position) : List Char → Reader
  | [] => ⟨[], p⟩
  | c :: cs => if c == '\n' then ⟨c :: cs, p⟩ else skipLine (p.past c) cs

def skipComment (p : Position) (star : Bool) : List Char → Option Reader
  | [] => none
  | c :: cs => if c == '/' && star then some ⟨cs, p.past c⟩ else skipComment (p.past c) (c == '*') cs

theorem skipLine_length_le (p : Position) (cs : List Char) : (skipLine p cs).rest.length ≤ cs.length := by
  fun_induction skipLine p cs with
  | case1 => simp
  | case2 => simp
  | case3 p c cs h ih => simp only [List.length_cons]; omega

theorem skipComment_length_le {p : Position} {star : Bool} {cs : List Char} {r : Reader}
    (h : skipComment p star cs = some r) : r.rest.length ≤ cs.length := by
  fun_induction skipComment p star cs with
  | case1 => simp at h
  | case2 p star c cs hc => simp only [Option.some.injEq] at h; subst h; simp
  | case3 p star c cs hc ih => have := ih h; simp only [List.length_cons]; omega

def skip (r : Reader) : Except Error Reader :=
  match r with
  | ⟨c :: cs, p⟩ =>
    if Text.isBlank c then
      skip ⟨cs, p.past c⟩
    else if c == '/' then
      match cs with
      | '/' :: cs' => skip (skipLine (p.right 2) cs')
      | '*' :: cs' =>
        match _h : skipComment (p.right 2) false cs' with
        | some r => skip r
        | none =>
          .error (Problem.unterminatedComment.inSpan
            { line := p.line, start := p.col, stop := p.col + 2 })
      | _ => .ok r
    else
      .ok r
  | ⟨[], _⟩ => .ok r
termination_by r.rest.length
decreasing_by
  · simp
  · have := skipLine_length_le (p.right 2) cs'
    simp only [List.length_cons]
    omega
  · have := skipComment_length_le _h
    simp only [List.length_cons]
    omega

def escapedLetter? (c : Char) : Option UInt8 :=
  match c with
  | 'n' => some 0x0A
  | 'r' => some 0x0D
  | 't' => some 0x09
  | 'a' => some 0x07
  | 'b' => some 0x08
  | 'f' => some 0x0C
  | 'v' => some 0x0B
  | '\\' => some 0x5C
  | '\'' => some 0x27
  | '"' => some 0x22
  | '?' => some 0x3F
  | _ => none

def digits (radix : Nat) (cs : List Char) : List Char :=
  cs.takeWhile fun c => (Text.digit? radix c).isSome

def lowByte (radix : Nat) (cs : List Char) : UInt8 :=
  UInt8.ofNat ((Text.numeralFrom radix 0 cs).getD 0)

/--
Reads an escape behind its backslash: a letter, any number of hexadecimal digits behind an `x`, or up
to three octal digits.
-/
def escape (start : Nat) (p : Position) : List Char → Except Error (UInt8 × Reader)
  | [] => .error (errorHere start p .unknownEscape)
  | c :: cs =>
    match escapedLetter? c with
    | some b => .ok (b, ⟨cs, p.past c⟩)
    | none =>
      if c == 'x' then
        let ds := digits 16 cs
        if ds.isEmpty then .error (errorHere start (p.past c) .badHexEscape)
        else .ok (lowByte 16 ds, ⟨cs.drop ds.length, (p.past c).right ds.length⟩)
      else if (Text.digit? 8 c).isSome then
        let ds := digits 8 (cs.take 2)
        .ok (lowByte 8 (c :: ds), ⟨cs.drop ds.length, (p.past c).right ds.length⟩)
      else
        .error (errorHere start (p.past c) .unknownEscape)

theorem escape_length_lt {start : Nat} {p : Position} {cs : List Char} {b : UInt8} {r : Reader}
    (h : escape start p cs = .ok (b, r)) : r.rest.length < cs.length := by
  cases cs with
  | nil => simp [escape] at h
  | cons c cs =>
    simp only [escape] at h
    split at h
    · simp only [Except.ok.injEq, Prod.mk.injEq] at h
      simp [← h.2]
    · split at h
      · split at h
        · simp at h
        · simp only [Except.ok.injEq, Prod.mk.injEq] at h
          simp only [← h.2, List.length_drop, List.length_cons]
          omega
      · split at h
        · simp only [Except.ok.injEq, Prod.mk.injEq] at h
          simp only [← h.2, List.length_drop, List.length_cons]
          omega
        · simp at h

def quoted (mark : Char) (start : Nat) (r : Reader) : Except Error (List UInt8 × Reader) :=
  match r with
  | ⟨[], p⟩ => .error (errorHere start p .unterminatedLiteral)
  | ⟨c :: cs, p⟩ =>
    if c == '\n' then
      .error (errorHere start (p.past c) .unterminatedLiteral)
    else if c == mark then
      .ok ([], ⟨cs, p.past c⟩)
    else if c == '\\' then
      match _h : escape start (p.past c) cs with
      | .error e => .error e
      | .ok (b, r) => (quoted mark start r).map fun (bytes, r) => (b :: bytes, r)
    else
      (quoted mark start ⟨cs, p.past c⟩).map fun (bytes, r) => (Text.Utf8.encode [c] ++ bytes, r)
termination_by r.rest.length
decreasing_by
  · have := escape_length_lt _h
    simp only [List.length_cons]
    omega
  · simp

theorem map_eq_ok {α β : Type} {x : Except Error α} {f : α → β} {b : β} (h : x.map f = .ok b) :
    ∃ a, x = .ok a ∧ f a = b := by
  cases x with
  | error e => cases h
  | ok a => exact ⟨a, rfl, Except.ok.inj h⟩

theorem quoted_length_lt {mark : Char} {start : Nat} {r : Reader} {bytes : List UInt8} {r' : Reader}
    (h : quoted mark start r = .ok (bytes, r')) : r'.rest.length < r.rest.length := by
  fun_induction quoted mark start r generalizing bytes r' with
  | case1 => simp at h
  | case2 => simp at h
  | case3 c cs p _ _ =>
    simp only [Except.ok.injEq, Prod.mk.injEq] at h
    simp [← h.2]
  | case4 => simp at h
  | case5 c cs p _ _ _ b r hr ih =>
    have hlt := escape_length_lt hr
    obtain ⟨_, hq, heq⟩ := map_eq_ok h
    cases heq
    have := ih hq
    simp only [List.length_cons]
    omega
  | case6 c cs p _ _ _ ih =>
    obtain ⟨_, hq, heq⟩ := map_eq_ok h
    cases heq
    have := ih hq
    simp only [List.length_cons] at this ⊢
    omega

def startsOperator (cs : List Char) : Bool :=
  Operator.table.any fun (text, _) => cs.isPrefixOf text

def operatorChars : Nat → List Char → Reader → List Char × Reader
  | n + 1, cs, ⟨c :: rest, p⟩ =>
    if startsOperator (cs ++ [c]) then operatorChars n (cs ++ [c]) ⟨rest, p.past c⟩
    else (cs, ⟨c :: rest, p⟩)
  | _, cs, r => (cs, r)

theorem operatorChars_length_le (n : Nat) (cs : List Char) (r : Reader) :
    (operatorChars n cs r).2.rest.length ≤ r.rest.length := by
  fun_induction operatorChars n cs r with
  | case1 n cs c rest p h ih => simp only [List.length_cons] at ih ⊢; omega
  | case2 => simp
  | case3 => simp

def number? (cs : List Char) : Option Nat :=
  match cs with
  | '0' :: 'x' :: ds => Text.numeral? 16 ds
  | '0' :: 'X' :: ds => Text.numeral? 16 ds
  | ds => Text.numeral? 10 ds

def number (start : Nat) (p : Position) (cs : List Char) : Except Error Token :=
  match number? cs with
  | none => .error (errorHere start p (.malformedNumber (String.ofList cs)))
  | some n =>
    if n < 0x100000000 then .ok (.int (UInt32.ofNat n).toInt32)
    else .error (Problem.numberTooLarge.inSpan { line := p.line, start := start, stop := p.col })

def word (cs : List Char) : Token :=
  let s := String.ofList cs
  match Word.ofText? s with
  | some w => .word w
  | none => .ident s

def wordOrNumber (c : Char) (cs : List Char) (p : Position) : Except Error (Token × Reader) :=
  let text := c :: cs.takeWhile isIdentChar
  let stop := p.right text.length
  let t := if isIdentStart c then .ok (word text) else number p.col stop text
  t.map (·, ⟨cs.dropWhile isIdentChar, stop⟩)

def character (start : Nat) (r : Reader) : Except Error (Token × Reader) :=
  match quoted '\'' start r with
  | .error e => .error e
  | .ok ([b], r) => .ok (.int b.toUInt32.toInt32, r)
  | .ok (_, r) => .error (errorHere start r.pos .longCharacter)

def operator (start : Nat) (c : Char) (r : Reader) : Except Error (Token × Reader) :=
  match operatorChars 2 [c] r with
  | (text, r) =>
    match Operator.ofChars? text with
    | some op => .ok (.op op, r)
    | none => .error (errorHere start r.pos (.unexpectedCharacter (String.ofList text)))

def token (c : Char) (cs : List Char) (p : Position) : Except Error (Token × Reader) :=
  if isIdentChar c then
    wordOrNumber c cs p
  else if c == '"' then
    (quoted c p.col ⟨cs, p.past c⟩).map fun (bytes, r) => (.str bytes, r)
  else if c == '\'' then
    character p.col ⟨cs, p.past c⟩
  else
    match Punct.ofChar? c with
    | some mark => .ok (.punct mark, ⟨cs, p.past c⟩)
    | none => operator p.col c ⟨cs, p.past c⟩

def next (r : Reader) : Except Error (Lexeme × Reader) :=
  match skip r with
  | .error e => .error e
  | .ok ⟨[], p⟩ =>
    .ok (⟨.eof, { line := p.line, start := p.col, stop := p.col }⟩, ⟨[], p⟩)
  | .ok ⟨c :: cs, p⟩ =>
    (token c cs p).map fun (t, r) =>
      (⟨t, { line := p.line, start := p.col, stop := r.pos.col }⟩, r)

theorem skip_length_le {r r' : Reader} (h : skip r = .ok r') : r'.rest.length ≤ r.rest.length := by
  fun_induction skip r with
  | case1 c cs p hc ih => have := ih h; simp only [List.length_cons] at this ⊢; omega
  | case2 c p hc hs cs ih =>
    have := ih h
    have := skipLine_length_le (p.right 2) cs
    simp only [List.length_cons]
    omega
  | case3 c p hc hs cs r hr ih =>
    have := ih h
    have := skipComment_length_le hr
    simp only [List.length_cons]
    omega
  | case4 => simp at h
  | case5 => simp only [Except.ok.injEq] at h; simp [← h]
  | case6 => simp only [Except.ok.injEq] at h; simp [← h]
  | case7 => simp only [Except.ok.injEq] at h; simp [← h]

theorem wordOrNumber_length_le {c : Char} {cs : List Char} {p : Position} {t : Token} {r : Reader}
    (h : wordOrNumber c cs p = .ok (t, r)) : r.rest.length ≤ cs.length := by
  obtain ⟨_, -, heq⟩ := map_eq_ok h
  cases heq
  exact (List.dropWhile_sublist isIdentChar).length_le

theorem character_length_le {start : Nat} {r r' : Reader} {t : Token}
    (h : character start r = .ok (t, r')) : r'.rest.length ≤ r.rest.length := by
  unfold character at h
  split at h
  · simp at h
  · rename_i hq
    simp only [Except.ok.injEq, Prod.mk.injEq] at h
    rw [← h.2]
    exact Nat.le_of_lt (quoted_length_lt hq)
  · simp at h

theorem operator_length_le {start : Nat} {c : Char} {r r' : Reader} {t : Token}
    (h : operator start c r = .ok (t, r')) : r'.rest.length ≤ r.rest.length := by
  have hle := operatorChars_length_le 2 [c] r
  unfold operator at h
  split at h
  rename_i text r1 heq
  rw [heq] at hle
  split at h
  · simp only [Except.ok.injEq, Prod.mk.injEq] at h
    rwa [← h.2]
  · simp at h

theorem token_length_le {c : Char} {cs : List Char} {p : Position} {t : Token} {r : Reader}
    (h : token c cs p = .ok (t, r)) : r.rest.length ≤ cs.length := by
  unfold token at h
  split at h
  · exact wordOrNumber_length_le h
  · split at h
    · obtain ⟨_, hq, heq⟩ := map_eq_ok h
      cases heq
      exact Nat.le_of_lt (quoted_length_lt hq)
    · split at h
      · exact character_length_le h
      · split at h
        · simp only [Except.ok.injEq, Prod.mk.injEq] at h
          simp [← h.2]
        · exact operator_length_le h

theorem next_length_lt {r r' : Reader} {l : Lexeme} (h : next r = .ok (l, r'))
    (hl : l.token ≠ .eof) : r'.rest.length < r.rest.length := by
  unfold next at h
  split at h
  · simp at h
  · simp only [Except.ok.injEq, Prod.mk.injEq] at h
    simp [← h.1] at hl
  · rename_i c cs p hs
    have hle := skip_length_le hs
    obtain ⟨_, ht, heq⟩ := map_eq_ok h
    cases heq
    have := token_length_le ht
    simp only [List.length_cons] at hle
    omega

end Lexer
end Handheld.Source
