import Handheld.Printf
import Handheld.Proofs.Text.Numeral
import Mathlib.Data.List.DropRight

/-!
Formatted text. Literal bytes and directives make one field each, and a number is read back from its field.
-/
namespace Handheld.Printf

variable {args : List Int32} {b : UInt8} {p : Piece}

variable {conv : UInt8} {v : Int32} {d : Directive} {fmt : List UInt8} {pieces : List Piece}
  {cs : List Char}

section Reading

variable {rest fmt : List UInt8}

def Directive.bytes (d : Directive) : List UInt8 :=
  d.flags ++ (d.digits ++ d.longs)

structure Directive.Longest (d : Directive) (rest : List UInt8) : Prop where
  flags : ∀ b ∈ d.flags, isFlag b = true
  digits : ∀ b ∈ d.digits, Ascii.isDigit b = true
  longs : ∀ b ∈ d.longs, (b == 0x6C) = true
  flagsEnd : ∀ b ∈ (d.digits ++ (d.longs ++ rest)).head?, isFlag b = false
  digitsEnd : ∀ b ∈ (d.longs ++ rest).head?, Ascii.isDigit b = false
  longsEnd : ∀ b ∈ rest.head?, (b == 0x6C) = false

theorem Directive.bytes_append (d : Directive) (rest : List UInt8) :
    d.bytes ++ rest = d.flags ++ (d.digits ++ (d.longs ++ rest)) := by
  rw [bytes, List.append_assoc, List.append_assoc]

theorem Directive.drop_bytes_append (d : Directive) (rest : List UInt8) : (d.bytes ++ rest).drop d.length = rest := by
  have hlength : d.bytes.length = d.length := by
    rw [bytes, length, List.length_append, List.length_append, Nat.add_assoc]
  rw [← hlength, List.drop_left]

theorem directive_bytes_append (h : d.Longest rest) : directive (d.bytes ++ rest) = d := by
  have hflags : (d.bytes ++ rest).takeWhile isFlag = d.flags := by
    rw [Directive.bytes_append]
    exact Text.takeWhile_append_of_head h.flags h.flagsEnd
  have hdigits : ((d.bytes ++ rest).drop d.flags.length).takeWhile Ascii.isDigit = d.digits := by
    rw [Directive.bytes_append, List.drop_left]
    exact Text.takeWhile_append_of_head h.digits h.digitsEnd
  have hlongs : ((d.bytes ++ rest).drop (d.flags.length + d.digits.length)).takeWhile (· == 0x6C) = d.longs := by
    rw [Directive.bytes_append, ← List.drop_drop, List.drop_left, List.drop_left]
    exact Text.takeWhile_append_of_head h.longs h.longsEnd
  unfold directive
  simp only [hflags, hdigits, hlongs]

theorem directive_eq (fmt : List UInt8) :
    directive fmt =
      { flags := fmt.takeWhile isFlag
        digits := (fmt.dropWhile isFlag).takeWhile Ascii.isDigit
        longs := ((fmt.dropWhile isFlag).dropWhile Ascii.isDigit).takeWhile (· == 0x6C) } := by
  unfold directive
  simp only [← List.drop_drop, Text.drop_length_takeWhile]

theorem longest_directive (fmt : List UInt8) :
    ∃ rest, fmt = (directive fmt).bytes ++ rest ∧ (directive fmt).Longest rest := by
  have hlongs := @List.takeWhile_append_dropWhile _ (· == (0x6C : UInt8)) ((fmt.dropWhile isFlag).dropWhile Ascii.isDigit)
  have hdigits := @List.takeWhile_append_dropWhile _ Ascii.isDigit (fmt.dropWhile isFlag)
  refine ⟨((fmt.dropWhile isFlag).dropWhile Ascii.isDigit).dropWhile (· == 0x6C), ?_, ?_⟩
  · rw [Directive.bytes_append, directive_eq, hlongs, hdigits, List.takeWhile_append_dropWhile]
  · rw [directive_eq]
    constructor
    case flags => exact fun b => List.mem_takeWhile_imp
    case digits => exact fun b => List.mem_takeWhile_imp
    case longs => exact fun b => List.mem_takeWhile_imp
    case flagsEnd =>
      rw [hlongs, hdigits]
      exact Text.head?_dropWhile _ _
    case digitsEnd =>
      rw [hlongs]
      exact Text.head?_dropWhile _ _
    case longsEnd => exact Text.head?_dropWhile _ _

inductive Piece where
  | literal (b : UInt8)
  | directive (d : Directive) (conv : UInt8)

inductive Reads : List UInt8 → List Piece → Prop where
  | done : Reads [] []
  | cut {d : Directive} (h : d.Longest []) : Reads (0x25 :: d.bytes) []
  | literal {b : UInt8} {fmt : List UInt8} {pieces : List Piece} (hb : b ≠ 0x25) (h : Reads fmt pieces) :
    Reads (b :: fmt) (.literal b :: pieces)
  | directive {d : Directive} {conv : UInt8} {fmt : List UInt8} {pieces : List Piece} (hd : d.Longest (conv :: fmt))
    (h : Reads fmt pieces) : Reads (0x25 :: (d.bytes ++ conv :: fmt)) (.directive d conv :: pieces)

theorem exists_reads (fmt : List UInt8) : ∃ pieces, Reads fmt pieces := by
  induction hlength : fmt.length using Nat.strongRecOn generalizing fmt with
  | ind n ih =>
    cases fmt with
    | nil => exact ⟨[], .done⟩
    | cons b fmt =>
      rw [List.length_cons] at hlength
      by_cases hb : b = 0x25
      · subst hb
        obtain ⟨rest, hfmt, hlongest⟩ := longest_directive fmt
        rw [hfmt]
        cases rest with
        | nil =>
          rw [List.append_nil]
          exact ⟨[], .cut hlongest⟩
        | cons conv rest =>
          have hrest : fmt.length = (Printf.directive fmt).bytes.length + (rest.length + 1) := by
            rw [← List.length_cons, ← List.length_append, ← hfmt]
          obtain ⟨pieces, hpieces⟩ := ih rest.length (by omega) rest rfl
          exact ⟨_, .directive hlongest hpieces⟩
      · obtain ⟨pieces, hpieces⟩ := ih fmt.length (by omega) fmt rfl
        exact ⟨_, .literal hb hpieces⟩

end Reading

section Writing

variable {string : Int32 → List UInt8}

def letter (b : UInt8) : Char :=
  Char.ofNat b.toNat

def Piece.takes : Piece → Bool
  | literal _ => false
  | directive _ conv => "diuxXcs".toList.contains (letter conv)

def unpadded (string : Int32 → List UInt8) (conv : UInt8) (v : Int32) : List UInt8 :=
  (convert? conv string v).getD (if conv == 0x25 then [0x25] else [0x25, conv])

def Piece.text (string : Int32 → List UInt8) (v : Int32) : Piece → List UInt8
  | literal b => [b]
  | directive d conv => d.field.fill (isNumeric conv) (unpadded string conv v)

def Piece.remaining (args : List Int32) (p : Piece) : List Int32 :=
  if p.takes then args.tail else args

theorem convert?_eq_none_iff : convert? conv string v = none ↔ "diuxXcs".toList.contains (letter conv) = false := by
  unfold convert? letter
  split <;> simp_all

theorem isNumeric_of_none (h : convert? conv string v = none) : isNumeric conv = false := by
  have hother := convert?_eq_none_iff.mp h
  unfold isNumeric
  simp_all [letter]

theorem remaining_of_some {text : List UInt8}
    (h : convert? conv string v = some text) : (Piece.directive d conv).remaining args = args.tail := by
  apply if_pos
  rw [← Bool.not_eq_false]
  intro hnone
  rw [convert?_eq_none_iff.mpr hnone] at h
  cases h

theorem remaining_of_none (h : convert? conv string v = none) : (Piece.directive d conv).remaining args = args := by
  apply if_neg
  rw [Bool.not_eq_true]
  exact convert?_eq_none_iff.mp h

theorem format_cut (h : d.Longest []) (args : List Int32) : format string (0x25 :: d.bytes) args = [] := by
  have hd := directive_bytes_append h
  have hdrop := d.drop_bytes_append []
  rw [List.append_nil] at hd hdrop
  rw [format, if_neg (by decide)]
  simp only [hd]
  split
  next => rfl
  next heq =>
    rw [hd, hdrop] at heq
    cases heq

theorem format_literal (hb : b ≠ 0x25) (fmt : List UInt8) (args : List Int32) :
    format string (b :: fmt) args = b :: format string fmt args := by
  rw [format, if_pos (by simpa using hb)]

theorem format_directive (h : d.Longest (conv :: fmt)) (args : List Int32)
    : format string (0x25 :: (d.bytes ++ conv :: fmt)) args
      = (Piece.directive d conv).text string (args.headD 0)
        ++ format string fmt ((Piece.directive d conv).remaining args) := by
  have hd := directive_bytes_append h
  have hdrop := d.drop_bytes_append (conv :: fmt)
  rw [format, if_neg (by decide)]
  simp only [hd]
  split
  next heq =>
    rw [hd, hdrop] at heq
    cases heq
  next heq =>
    rw [hd, hdrop] at heq
    cases heq
    cases hconvert : convert? conv string (args.headD 0) with
    | some text => rw [Piece.text, unpadded, hconvert, remaining_of_some hconvert, Option.getD_some]
    | none =>
      rw [Piece.text, unpadded, hconvert, remaining_of_none hconvert, isNumeric_of_none hconvert, Option.getD_none]

def texts (string : Int32 → List UInt8) : List Piece → List Int32 → List (List UInt8)
  | [], _ => []
  | p :: pieces, args => p.text string (args.headD 0) :: texts string pieces (p.remaining args)

theorem format_eq_texts (h : Reads fmt pieces) (args : List Int32) :
    format string fmt args = (texts string pieces args).flatten := by
  induction h generalizing args with
  | done =>
    rw [format]
    rfl
  | cut h => exact format_cut h args
  | literal hb _ ih =>
    rw [format_literal hb, ih]
    rfl
  | directive hd _ ih =>
    rw [format_directive hd, ih]
    rfl

theorem length_texts (pieces : List Piece) (args : List Int32) : (texts string pieces args).length = pieces.length := by
  induction pieces generalizing args with
  | nil => rfl
  | cons p pieces ih => rw [texts, List.length_cons, List.length_cons, ih]

theorem getD_remaining (p : Piece) (args : List Int32) (n : Nat) :
    (p.remaining args).getD n 0 = args.getD (n + if p.takes then 1 else 0) 0 := by
  unfold Piece.remaining
  split
  next => rw [List.getD_eq_getElem?_getD, List.getD_eq_getElem?_getD, List.getElem?_tail]
  next => rw [Nat.add_zero]

theorem getElem?_texts {i : Nat} (h : pieces[i]? = some p) (args : List Int32) :
    (texts string pieces args)[i]? = some (p.text string (args.getD ((pieces.take i).countP Piece.takes) 0)) := by
  induction pieces generalizing i args with
  | nil => cases h
  | cons q pieces ih =>
    cases i with
    | zero =>
      cases h
      cases args with
      | nil => rfl
      | cons v args => rfl
    | succ i =>
      rw [List.getElem?_cons_succ] at h
      rw [texts, List.getElem?_cons_succ, ih h, getD_remaining, List.take_succ_cons, List.countP_cons]

end Writing

section Fields

def chars (bytes : List UInt8) : List Char :=
  bytes.map letter

def strip (bytes : List UInt8) : List UInt8 :=
  (bytes.dropWhile (· == 0x20)).rdropWhile (· == 0x20)

structure Converts (string : Int32 → List UInt8) (v : Int32) (conv : UInt8) (text : List UInt8) : Prop where
  signed : letter conv = 'd' ∨ letter conv = 'i' →
    ∃ cs, Text.IsNumeral 10 v.toInt.natAbs cs ∧ text = ascii ((if v.toInt < 0 then ['-'] else []) ++ cs)
  unsigned : letter conv = 'u' → ∃ cs, Text.IsNumeral 10 v.toUInt32.toNat cs ∧ text = ascii cs
  lower : letter conv = 'x' →
    ∃ cs, Text.IsNumeral 16 v.toUInt32.toNat cs ∧ (∀ c ∈ cs, c.isUpper = false) ∧ text = ascii cs
  upper : letter conv = 'X' →
    ∃ cs, Text.IsNumeral 16 v.toUInt32.toNat cs ∧ (∀ c ∈ cs, c.isLower = false) ∧ text = ascii cs
  byte : letter conv = 'c' → text = [v.toUInt32.toUInt8]
  string : letter conv = 's' → text = string v
  percent : letter conv = '%' → text = [0x25]
  unknown : letter conv ∉ "diuxXcs%".toList → text = [0x25, conv]

structure Padded (d : Directive) (numeric : Bool) (text out : List UInt8) : Prop where
  length : ∃ width, Text.numeralFrom 10 0 (chars d.digits) = some width ∧ out.length = max width text.length
  left : 0x2D ∈ d.flags → ∃ k, out = text ++ List.replicate k 0x20
  zeros : 0x2D ∉ d.flags → 0x30 ∈ d.flags → numeric = true →
    ∃ sign digits k, text = sign ++ digits ∧ (sign = [0x2D] ∨ sign = [] ∧ digits.head? ≠ some 0x2D)
      ∧ out = sign ++ (List.replicate k 0x30 ++ digits)
  right : 0x2D ∉ d.flags → (0x30 ∉ d.flags ∨ numeric = false) → ∃ k, out = List.replicate k 0x20 ++ text

structure ReadsBack (v : Int32) (conv : UInt8) (out : List UInt8) : Prop where
  signed : letter conv = 'd' ∨ letter conv = 'i' → Text.signed? 10 (chars (strip out)) = some v.toInt
  unsigned : letter conv = 'u' → Text.numeral? 10 (chars (strip out)) = some v.toUInt32.toNat
  hex : letter conv = 'x' ∨ letter conv = 'X' → Text.numeral? 16 (chars (strip out)) = some v.toUInt32.toNat

variable {string : Int32 → List UInt8} {numeric : Bool} {text out : List UInt8}

theorem toNat_letter (b : UInt8) : (letter b).toNat = b.toNat := by
  have hlt := b.toNat_lt
  have hvalid : b.toNat.isValidChar := .inl (by omega)
  rw [letter, Char.ofNat, dif_pos hvalid]
  rfl

theorem letter_ofNat {c : Char} (h : c.toNat < 0x100) : letter (UInt8.ofNat c.toNat) = c := by
  rw [letter, UInt8.toNat_ofNat_of_lt' h, Char.ofNat_toNat]

theorem chars_ascii (h : ∀ c ∈ cs, c.toNat < 0x100) : chars (ascii cs) = cs := by
  rw [chars, ascii, List.map_map]
  exact (List.map_congr_left fun c hc => letter_ofNat (h c hc)).trans (List.map_id cs)

theorem converts_unpadded (string : Int32 → List UInt8) (v : Int32) (conv : UInt8) :
    Converts string v conv (unpadded string conv v) := by
  have hother (h : letter conv ∉ "diuxXcs".toList) :
      unpadded string conv v = if conv == 0x25 then [0x25] else [0x25, conv] := by
    rw [unpadded, convert?_eq_none_iff.mpr (by simpa using h), Option.getD_none]
  have hpercent : conv = 0x25 ↔ letter conv = '%' := by
    rw [← UInt8.toNat_inj, ← Char.toNat_inj, toNat_letter]
    rfl
  constructor
  case signed =>
    obtain ⟨cs, hcs, htext⟩ := Text.isNumeral_toString v.toInt
    rintro (hconv | hconv)
    all_goals
      rw [letter] at hconv
      exact ⟨cs, hcs, by simp only [unpadded, convert?, hconv, htext, Option.getD_some]⟩
  case unsigned =>
    intro hconv
    rw [letter] at hconv
    refine ⟨_, Text.isNumeral_toDigits (by omega) (by omega) _, ?_⟩
    simp only [unpadded, convert?, hconv, Nat.toString_eq_repr, Nat.toList_repr, Option.getD_some]
  case lower =>
    intro hconv
    rw [letter] at hconv
    refine ⟨_, Text.isNumeral_toDigits (by omega) (by omega) _, fun c => Text.isUpper_of_mem_lowerHex, ?_⟩
    simp only [unpadded, convert?, hconv, Text.lowerHex, Option.getD_some]
  case upper =>
    intro hconv
    rw [letter] at hconv
    refine ⟨_, Text.isNumeral_upperHex _, fun c => Text.isLower_of_mem_upperHex, ?_⟩
    simp only [unpadded, convert?, hconv, Option.getD_some]
  case byte =>
    intro hconv
    rw [letter] at hconv
    simp only [unpadded, convert?, hconv, Option.getD_some]
  case string =>
    intro hconv
    rw [letter] at hconv
    simp only [unpadded, convert?, hconv, Option.getD_some]
  case percent =>
    intro hconv
    rw [hother (by rw [hconv]; decide), hpercent.mpr hconv]
    rfl
  case unknown =>
    intro hconv
    have hne : conv ≠ 0x25 := by
      intro h
      rw [hpercent.mp h] at hconv
      exact hconv (by decide)
    rw [hother fun h => hconv (List.mem_append_left ['%'] h), if_neg (by simpa using hne)]

theorem digit?_letter (h : Ascii.isDigit b = true) : Text.digit? 10 (letter b) = some (b.toNat - 0x30) := by
  simp only [Ascii.isDigit, Bool.and_eq_true, decide_eq_true_eq, UInt8.le_iff_toNat_le] at h
  obtain ⟨hlo, hhi⟩ := h
  change 0x30 ≤ b.toNat at hlo
  change b.toNat ≤ 0x39 at hhi
  rw [letter]
  generalize b.toNat = n at hlo hhi
  interval_cases n <;> rfl

theorem numeralFrom_chars {bytes : List UInt8} (h : ∀ b ∈ bytes, Ascii.isDigit b = true) (acc : Nat) :
    Text.numeralFrom 10 acc (chars bytes) = some (bytes.foldl (fun n b => n * 10 + (b.toNat - 0x30)) acc) := by
  induction bytes generalizing acc with
  | nil => rfl
  | cons b bytes ih =>
    rw [List.forall_mem_cons] at h
    rw [chars, List.map_cons, Text.numeralFrom, digit?_letter h.1]
    exact ih h.2 _

theorem length_fill (f : Field) (numeric : Bool) (text : List UInt8) :
    (f.fill numeric text).length = max f.width text.length := by
  simp only [Field.fill]
  split
  next => grind
  next =>
    split
    next => split <;> grind
    next => grind

theorem padded_fill (h : ∀ b ∈ d.digits, Ascii.isDigit b = true) (numeric : Bool) (text : List UInt8) :
    Padded d numeric text (d.field.fill numeric text) := by
  constructor
  case length => exact ⟨_, numeralFrom_chars h 0, length_fill d.field numeric text⟩
  case left =>
    intro hminus
    have hleft : d.field.left = true := by simpa [Directive.field] using hminus
    exact ⟨d.field.width - text.length, by simp only [Field.fill, if_pos hleft]⟩
  case zeros =>
    intro hminus hzero hnumeric
    have hleft : ¬d.field.left = true := by simpa [Directive.field] using hminus
    have hzero' : (d.field.zero && numeric) = true := by simpa [Directive.field, hnumeric] using hzero
    simp only [Field.fill, if_neg hleft, if_pos hzero']
    split
    next digits => exact ⟨[0x2D], digits, _, rfl, .inl rfl, rfl⟩
    next hsign =>
      refine ⟨[], text, _, rfl, .inr ⟨rfl, ?_⟩, rfl⟩
      intro hhead
      obtain ⟨digits, hdigits⟩ := List.head?_eq_some_iff.mp hhead
      exact hsign digits hdigits
  case right =>
    intro hminus hright
    have hleft : ¬d.field.left = true := by simpa [Directive.field] using hminus
    have hzero : ¬(d.field.zero && numeric) = true := by
      rcases hright with h | h <;> simp [Directive.field, h]
    exact ⟨d.field.width - text.length, by simp only [Field.fill, if_neg hleft, if_neg hzero]⟩

theorem dropWhile_spaces_append {rest : List UInt8} (h : ∀ b ∈ rest.head?, b ≠ 0x20) (k : Nat) :
    (List.replicate k 0x20 ++ rest).dropWhile (· == 0x20) = rest := by
  have hspaces : ∀ b ∈ List.replicate k (0x20 : UInt8), (b == 0x20) = true := by
    intro b hb
    rw [List.eq_of_mem_replicate hb]
    rfl
  rw [List.dropWhile_append_of_pos hspaces]
  cases rest with
  | nil => rfl
  | cons b rest => rw [List.dropWhile_cons_of_neg (by simpa using h b rfl)]

theorem strip_spaces {t : List UInt8} (h : 0x20 ∉ t) (j k : Nat) :
    strip (List.replicate j 0x20 ++ (t ++ List.replicate k 0x20)) = t := by
  have hfront : strip (List.replicate j 0x20 ++ (t ++ List.replicate k 0x20))
      = (t ++ List.replicate k 0x20).rdropWhile (· == 0x20) := by
    cases t with
    | nil =>
      have hall (n : Nat) := @dropWhile_spaces_append [] (by simp) n
      simp only [List.append_nil] at hall
      rw [strip, List.nil_append, ← List.replicate_add, hall, List.rdropWhile, List.rdropWhile,
        List.reverse_replicate, hall]
      rfl
    | cons b t =>
      rw [strip, dropWhile_spaces_append]
      rintro _ ⟨⟩ rfl
      exact h List.mem_cons_self
  have hback : ∀ b ∈ t.reverse.head?, b ≠ 0x20 := by
    rintro b hb rfl
    exact h (List.mem_reverse.mp (List.mem_of_mem_head? hb))
  rw [hfront, List.rdropWhile, List.reverse_append, List.reverse_replicate, dropWhile_spaces_append hback,
    List.reverse_reverse]

theorem chars_strip (h : ∀ c ∈ cs, 0x2D ≤ c.toNat ∧ c.toNat ≤ 0x66) (j k : Nat) :
    chars (strip (List.replicate j 0x20 ++ (ascii cs ++ List.replicate k 0x20))) = cs := by
  have hlt : ∀ c ∈ cs, c.toNat < 0x100 := fun c hc => Nat.lt_of_le_of_lt (h c hc).2 (by decide)
  have hspace : 0x20 ∉ ascii cs := by
    intro hmem
    obtain ⟨c, hc, heq⟩ := List.mem_map.mp hmem
    have hletter := letter_ofNat (hlt c hc)
    rw [heq] at hletter
    have hlo := (h c hc).1
    rw [← hletter] at hlo
    exact absurd hlo (by decide)
  rw [strip_spaces hspace, chars_ascii hlt]

section Numeral

variable {radix n : Nat} {sign cs : List Char} (hsign : sign = ['-'] ∨ sign = [])
  (hcs : Text.numeral? radix cs = some n)
include hsign hcs

theorem bounds_of_mem_numeral (k : Nat) :
    ∀ c ∈ sign ++ (List.replicate k '0' ++ cs), 0x2D ≤ c.toNat ∧ c.toNat ≤ 0x66 := by
  intro c hc
  simp only [List.mem_append] at hc
  rcases hc with hc | hc | hc
  · rcases hsign with rfl | rfl
    · rw [List.mem_singleton.mp hc]
      decide
    · cases hc
  · rw [List.eq_of_mem_replicate hc]
    decide
  · obtain ⟨digit, hdigit⟩ := Text.digit?_of_mem_numeral hcs hc
    have hbounds := Text.digit?_bounds hdigit
    omega

theorem sign_eq {s digits : List UInt8} (h : ascii (sign ++ cs) = s ++ digits)
    (hs : s = [0x2D] ∨ s = [] ∧ digits.head? ≠ some 0x2D)
    : s = ascii sign ∧ digits = ascii cs := by
  rw [ascii, List.map_append] at h
  rcases hsign with rfl | rfl
  · rcases hs with rfl | ⟨rfl, hhead⟩
    · exact ⟨rfl, (List.cons.inj h).2.symm⟩
    · rw [← List.nil_append digits, ← h] at hhead
      exact absurd rfl hhead
  · rcases hs with rfl | ⟨rfl, hhead⟩
    · cases cs with
      | nil => cases h
      | cons c cs =>
        obtain ⟨digit, hdigit⟩ := Text.digit?_of_mem_numeral hcs List.mem_cons_self
        obtain ⟨hlo, hhi⟩ := Text.digit?_bounds hdigit
        have hc := letter_ofNat (Nat.lt_of_le_of_lt hhi (by decide))
        have hminus : UInt8.ofNat c.toNat = 0x2D := (List.cons.inj h).1
        rw [← hc, hminus] at hlo
        exact absurd hlo (by decide)
    · exact ⟨rfl, h.symm⟩

theorem Padded.exists_zeros (h : Padded d numeric (ascii (sign ++ cs)) out) :
    ∃ k, chars (strip out) = sign ++ (List.replicate k '0' ++ cs) := by
  have hspaced (j k : Nat) := chars_strip (bounds_of_mem_numeral hsign hcs 0) j k
  by_cases hminus : 0x2D ∈ d.flags
  · obtain ⟨k, rfl⟩ := h.left hminus
    exact ⟨0, hspaced 0 k⟩
  by_cases hzero : 0x30 ∈ d.flags ∧ numeric = true
  · obtain ⟨s, digits, k, htext, hs, rfl⟩ := h.zeros hminus hzero.1 hzero.2
    obtain ⟨rfl, rfl⟩ := sign_eq hsign hcs htext hs
    have hstrip := chars_strip (bounds_of_mem_numeral hsign hcs k) 0 0
    refine ⟨k, ?_⟩
    simpa [ascii] using hstrip
  · rw [not_and_or, Bool.not_eq_true] at hzero
    obtain ⟨j, rfl⟩ := h.right hminus hzero
    refine ⟨0, ?_⟩
    simpa using hspaced j 0

end Numeral

theorem Converts.readsBack (h : Converts string v conv text) (hout : Padded d numeric text out) :
    ReadsBack v conv out := by
  have hunsigned {radix : Nat} (hr : 1 < radix) (hr' : radix ≤ 16) {n : Nat} {cs : List Char}
      (hcs : Text.IsNumeral radix n cs) (htext : text = ascii cs) :
      Text.numeral? radix (chars (strip out)) = some n := by
    subst htext
    obtain ⟨k, hk⟩ := hout.exists_zeros (.inr rfl) hcs.value
    rw [hk]
    exact Text.numeral?_replicate_zero hr hr' k hcs.value
  constructor
  case signed =>
    intro hconv
    obtain ⟨cs, hcs, rfl⟩ := h.signed hconv
    have hsign : (if v.toInt < 0 then ['-'] else []) = ['-'] ∨ (if v.toInt < 0 then ['-'] else []) = [] := by
      split
      · exact .inl rfl
      · exact .inr rfl
    obtain ⟨k, hk⟩ := hout.exists_zeros hsign hcs.value
    have hvalue := Text.numeral?_replicate_zero (by omega) (by omega) k hcs.value
    rw [hk]
    split
    next hneg =>
      rw [List.singleton_append, Text.signed?, hvalue, Option.map_some, Int.ofNat_eq_natCast,
        Int.ofNat_natAbs_of_nonpos (by omega), Int.neg_neg]
    next hneg =>
      rw [List.nil_append, Text.signed?_of_numeral? hvalue, Int.natAbs_of_nonneg (by omega)]
  case unsigned =>
    intro hconv
    obtain ⟨cs, hcs, htext⟩ := h.unsigned hconv
    exact hunsigned (by omega) (by omega) hcs htext
  case hex =>
    rintro (hconv | hconv)
    · obtain ⟨cs, hcs, -, htext⟩ := h.lower hconv
      exact hunsigned (by omega) (by omega) hcs htext
    · obtain ⟨cs, hcs, -, htext⟩ := h.upper hconv
      exact hunsigned (by omega) (by omega) hcs htext

def Piece.Shows (string : Int32 → List UInt8) (v : Int32) (out : List UInt8) : Piece → Prop
  | literal b => out = [b]
  | directive d conv =>
    ∃ text, Converts string v conv text ∧ Padded d (isNumeric conv) text out ∧ ReadsBack v conv out

theorem Reads.isDigit (h : Reads fmt pieces) (hd : .directive d conv ∈ pieces) :
    ∀ b ∈ d.digits, Ascii.isDigit b = true := by
  induction h with
  | done => cases hd
  | cut => cases hd
  | literal _ _ ih =>
    cases hd with
    | tail _ hd => exact ih hd
  | directive hlongest _ ih =>
    cases hd with
    | head => exact hlongest.digits
    | tail _ hd => exact ih hd

theorem Reads.shows_text (h : Reads fmt pieces) (hp : p ∈ pieces) : p.Shows string v (p.text string v) := by
  cases p with
  | literal b => rfl
  | directive d conv =>
    have hconverts := converts_unpadded string v conv
    have hpadded := padded_fill (h.isDigit hp) (isNumeric conv) (unpadded string conv v)
    exact ⟨_, hconverts, hpadded, hconverts.readsBack hpadded⟩

end Fields

/-- A text is made of one field for each piece of its format, which shows the argument behind those taken so far. -/
theorem format_fields (string : Int32 → List UInt8) (fmt : List UInt8) (args : List Int32) :
    (∃ pieces, Reads fmt pieces) ∧ ∀ pieces, Reads fmt pieces →
      ∃ fields : List (List UInt8), fields.length = pieces.length ∧ format string fmt args = fields.flatten
        ∧ ∀ (i : Nat) (piece : Piece) (field : List UInt8), pieces[i]? = some piece → fields[i]? = some field →
            piece.Shows string (args.getD ((pieces.take i).countP Piece.takes) 0) field := by
  refine ⟨exists_reads fmt, fun pieces hreads => ?_⟩
  refine ⟨texts string pieces args, length_texts pieces args, format_eq_texts hreads args, ?_⟩
  intro i piece field hpiece hfield
  rw [getElem?_texts hpiece args, Option.some.injEq] at hfield
  rw [← hfield]
  exact hreads.shows_text (List.mem_of_getElem? hpiece)

def ruled : List UInt8 :=
  ascii ['[', '%', '-', '3', 'u', '%', '%', '%', '0', '5', 'd']

theorem reads_ruled :
    Reads ruled [.literal 0x5B, .directive ⟨[0x2D], [0x33], []⟩ 0x75, .directive ⟨[], [], []⟩ 0x25,
      .directive ⟨[0x30], [0x35], []⟩ 0x64] := by
  have hlast := @Reads.directive ⟨[0x30], [0x35], []⟩ 0x64 _ _ (by constructor <;> simp [isFlag, Ascii.isDigit]) .done
  have hpercent := @Reads.directive ⟨[], [], []⟩ 0x25 _ _ (by constructor <;> simp [isFlag, Ascii.isDigit]) hlast
  have hfirst := @Reads.directive ⟨[0x2D], [0x33], []⟩ 0x75 _ _ (by constructor <;> simp [isFlag, Ascii.isDigit]) hpercent
  exact @Reads.literal 0x5B _ _ (by decide) hfirst

theorem format_fields_ruled :
    ∃ fields : List (List UInt8), fields.length = 4 ∧ format (fun _ => []) ruled [7, -42] = fields.flatten
      ∧ ∀ field, fields[3]? = some field →
          (Piece.directive ⟨[0x30], [0x35], []⟩ 0x64).Shows (fun _ => []) (-42) field := by
  obtain ⟨fields, hlength, hformat, hshows⟩ := (format_fields (fun _ => []) ruled [7, -42]).2 _ reads_ruled
  exact ⟨fields, hlength, hformat, fun field => hshows 3 _ field rfl⟩

example : format (fun _ => []) ruled [7, -42] = ascii "[7  %-0042".toList := by
  rw [format_eq_texts reads_ruled]
  decide

end Handheld.Printf
