import Handheld.Proofs.Text.Numeral
import Handheld.Source.Cursor

/-!
What the lexer passes over: blanks and comments, and tokens, which are spelled by their own characters whatever stands
behind them.
-/
namespace Handheld.Source

def Position.after (p : Position) (cs : List Char) : Position :=
  cs.foldl Position.past p

theorem Position.after_append (p : Position) (a b : List Char) : p.after (a ++ b) = (p.after a).after b :=
  List.foldl_append

theorem Position.after_of_one_line {p : Position} {cs : List Char} (h : '\n' ∉ cs) : p.after cs = p.right cs.length := by
  induction cs generalizing p with
  | nil => rfl
  | cons c cs ih =>
    rw [List.mem_cons, not_or] at h
    have hpast : p.past c = p.right 1 := by
      rw [past, if_neg (by simpa using Ne.symm h.1)]
      rfl
    rw [after, List.foldl_cons, hpast, ← after, ih h.2, right, right, right, List.length_cons, Nat.add_assoc,
      Nat.add_comm 1]

structure Reader.Passes (r : Reader) (cs : List Char) (r' : Reader) : Prop where
  text : r.rest = cs ++ r'.rest
  pos : r'.pos = r.pos.after cs

namespace Reader.Passes

variable {r r' r'' : Reader} {a b : List Char}

theorem refl (r : Reader) : r.Passes [] r :=
  ⟨rfl, rfl⟩

theorem trans (h : r.Passes a r') (h' : r'.Passes b r'') : r.Passes (a ++ b) r'' where
  text := by rw [h.text, h'.text, List.append_assoc]
  pos := by rw [h'.pos, h.pos, Position.after_append]

theorem cons (c : Char) {cs : List Char} {p : Position} (h : Reader.Passes ⟨cs, p.past c⟩ a r') :
    Reader.Passes ⟨c :: cs, p⟩ (c :: a) r' where
  text := congrArg (c :: ·) h.text
  pos := h.pos

end Reader.Passes

namespace Lexer

/--
Blanks and comments. A comment of one line ends with the line, or with the text if it is the last one; one between marks
ends with the first closing mark.
-/
inductive Trivia : Bool → List Char → Prop where
  | nil (last : Bool) : Trivia last []
  | blank {last : Bool} {c : Char} {cs : List Char} (hc : Text.isBlank c) (h : Trivia last cs) : Trivia last (c :: cs)
  | line {last : Bool} {body cs : List Char} (hbody : '\n' ∉ body) (h : Trivia last ('\n' :: cs)) :
    Trivia last ('/' :: '/' :: body ++ '\n' :: cs)
  | lastLine {body : List Char} (hbody : '\n' ∉ body) : Trivia true ('/' :: '/' :: body)
  | block {last : Bool} {body cs : List Char} (hbody : ¬['*', '/'] <:+: body ++ ['*']) (h : Trivia last cs) :
    Trivia last ('/' :: '*' :: body ++ '*' :: '/' :: cs)

theorem skipLine_passes (p : Position) (cs : List Char) :
    ∃ body, '\n' ∉ body ∧ Reader.Passes ⟨cs, p⟩ body (skipLine p cs)
      ∧ ((skipLine p cs).rest = [] ∨ (skipLine p cs).rest.head? = some '\n') := by
  fun_induction skipLine p cs with
  | case1 p => exact ⟨[], by simp, .refl _, .inl rfl⟩
  | case2 p c cs hc =>
    rw [beq_iff_eq] at hc
    exact ⟨[], by simp, .refl _, .inr (congrArg some hc)⟩
  | case3 p c cs hc ih =>
    obtain ⟨body, hbody, hpasses, hends⟩ := ih
    rw [beq_iff_eq] at hc
    refine ⟨c :: body, ?_, hpasses.cons c, hends⟩
    rw [List.mem_cons, not_or]
    exact ⟨Ne.symm hc, hbody⟩

theorem not_closing_cons {c : Char} {cs : List Char} (h : ¬['*', '/'] <:+: cs) (hc : c = '*' → cs.head? ≠ some '/') :
    ¬['*', '/'] <:+: c :: cs := by
  rw [List.infix_cons_iff, not_or]
  refine ⟨?_, h⟩
  rintro ⟨rest, hrest⟩
  cases hrest
  exact hc rfl rfl

def mark (star : Bool) : List Char :=
  if star then ['*'] else []

theorem skipComment_passes {p : Position} {star : Bool} {cs : List Char} {r : Reader}
    (h : skipComment p star cs = some r) :
    ∃ text body, Reader.Passes ⟨cs, p⟩ text r ∧ mark star ++ text = body ++ ['*', '/'] ∧ ¬['*', '/'] <:+: body ++ ['*'] := by
  fun_induction skipComment p star cs with
  | case1 => cases h
  | case2 p star c cs hc =>
    cases h
    simp only [Bool.and_eq_true, beq_iff_eq] at hc
    obtain ⟨rfl, rfl⟩ := hc
    exact ⟨['/'], [], (Reader.Passes.refl _).cons '/', rfl, by decide⟩
  | case3 p star c cs hc ih =>
    obtain ⟨text, body, hpasses, htext, hbody⟩ := ih h
    simp only [Bool.and_eq_true, beq_iff_eq, not_and] at hc
    by_cases hstar : c = '*'
    · subst hstar
      refine ⟨'*' :: text, mark star ++ body, hpasses.cons '*', ?_, ?_⟩
      · rw [List.append_assoc, ← htext]
        rfl
      · have hhead : (body ++ ['*']).head? = some '*' := by
          cases body with
          | nil => rfl
          | cons b body => exact congrArg List.head? htext.symm
        cases star with
        | false => exact hbody
        | true =>
          apply not_closing_cons hbody
          intro _ hslash
          cases hhead.symm.trans hslash
    · have htext' : text = body ++ ['*', '/'] := by simpa [mark, hstar] using htext
      refine ⟨c :: text, mark star ++ c :: body, hpasses.cons c, by simp [htext'], ?_⟩
      have hinner := not_closing_cons hbody fun hc => absurd hc hstar
      rw [List.append_assoc]
      cases star with
      | false => exact hinner
      | true =>
        apply not_closing_cons hinner
        intro _ hslash
        exact hc (Option.some.inj hslash) rfl

def Stops (cs : List Char) : Prop :=
  ∀ c rest, cs = c :: rest →
    Text.isBlank c = false ∧ (c = '/' → rest.head? ≠ some '/' ∧ rest.head? ≠ some '*')

theorem skip_of_stops {r : Reader} (h : Stops r.rest) : skip r = .ok r := by
  fun_cases skip r with
  | case1 c cs p hc =>
    rw [(h c cs rfl).1] at hc
    cases hc
  | case2 c p hc hs cs => exact absurd rfl ((h c _ rfl).2 (eq_of_beq hs)).1
  | case3 c p hc hs cs r hr | case4 c p hc hs cs hr => exact absurd rfl ((h c _ rfl).2 (eq_of_beq hs)).2
  | case5 => rfl
  | case6 => rfl
  | case7 => rfl

def unterminated (p : Position) : Error :=
  Problem.unterminatedComment.inSpan { line := p.line, start := p.col, stop := p.col + 2 }

/-- Skipping goes over blanks and comments up to a token, or up to a comment that nothing closes. -/
theorem skip_passes (r : Reader) :
    ∃ gap r', r.Passes gap r' ∧ Trivia r'.rest.isEmpty gap ∧ skip r = skip r'
      ∧ (Stops r'.rest ∨ (∃ body, r'.rest = '/' :: '*' :: body) ∧ skip r' = .error (unterminated r'.pos)) := by
  fun_induction skip r with
  | case1 c cs p hc ih =>
    obtain ⟨gap, r', hpasses, hgap, hends⟩ := ih
    exact ⟨c :: gap, r', hpasses.cons c, hgap.blank hc, hends⟩
  | case2 c p hc hs cs ih =>
    obtain ⟨gap, r', hpasses, hgap, heq, hstops⟩ := ih
    obtain ⟨body, hbody, hline, hends⟩ := skipLine_passes (p.right 2) cs
    cases eq_of_beq hs
    refine ⟨'/' :: '/' :: (body ++ gap), r', ((hline.trans hpasses).cons '/').cons '/', ?_, heq, hstops⟩
    -- what ends the comment is still there, and is skipped as well
    rcases hends with hends | hends
    · rw [hpasses.text, List.append_eq_nil_iff] at hends
      rw [hends.1, hends.2, List.append_nil]
      exact .lastLine hbody
    · cases gap with
      | nil =>
        rw [hpasses.text, List.nil_append] at hends
        obtain ⟨cs', hcs'⟩ := List.head?_eq_some_iff.mp hends
        rcases hstops with hstops | ⟨⟨_, hbody⟩, -⟩
        · cases (hstops '\n' cs' hcs').1
        · cases hcs'.symm.trans hbody
      | cons d gap =>
        rw [hpasses.text, List.cons_append, List.head?_cons, Option.some.injEq] at hends
        subst hends
        exact .line hbody hgap
  | case3 c p hc hs cs r hr ih =>
    obtain ⟨gap, r', hpasses, hgap, hends⟩ := ih
    obtain ⟨text, body, hcomment, htext, hbody⟩ := skipComment_passes hr
    cases eq_of_beq hs
    refine ⟨'/' :: '*' :: (text ++ gap), r', ((hcomment.trans hpasses).cons '*').cons '/', ?_, hends⟩
    rw [mark, if_neg (by decide), List.nil_append] at htext
    rw [htext, List.append_assoc]
    exact .block hbody hgap
  | case4 c p hc hs cs hr =>
    cases eq_of_beq hs
    have hskip : skip ⟨'/' :: '*' :: cs, p⟩ = .error (unterminated p) := by
      rw [skip.eq_def]
      simp only [hc, Bool.false_eq_true, if_false, beq_self_eq_true, if_true]
      split
      next h => cases hr.symm.trans h
      next => rfl
    exact ⟨[], _, .refl _, .nil _, hskip.symm, .inr ⟨⟨cs, rfl⟩, hskip⟩⟩
  | case5 c cs p hc hs hline hblock =>
    have hhead {d : Char} (hnone : ∀ cs', cs = d :: cs' → False) : cs.head? ≠ some d := by
      intro hsome
      obtain ⟨cs', hcs'⟩ := List.head?_eq_some_iff.mp hsome
      exact hnone cs' hcs'
    have hstops : Stops (c :: cs) := by
      rintro c' rest ⟨⟩
      exact ⟨eq_false_of_ne_true hc, fun _ => ⟨hhead hline, hhead hblock⟩⟩
    exact ⟨[], _, .refl _, .nil _, (skip_of_stops hstops).symm, .inl hstops⟩
  | case6 c cs p hc hs =>
    have hstops : Stops (c :: cs) := by
      rintro c' rest ⟨⟩
      exact ⟨eq_false_of_ne_true hc, fun hslash => absurd hslash (by simpa using hs)⟩
    exact ⟨[], _, .refl _, .nil _, (skip_of_stops hstops).symm, .inl hstops⟩
  | case7 p =>
    have hstops : Stops [] := by
      rintro c rest ⟨⟩
    exact ⟨[], _, .refl _, .nil _, (skip_of_stops hstops).symm, .inl hstops⟩

theorem skip_eq_ok {r r' : Reader} (h : skip r = .ok r') :
    Stops r'.rest ∧ ∃ gap, r.Passes gap r' ∧ Trivia r'.rest.isEmpty gap := by
  obtain ⟨gap, r'', hpasses, hgap, heq, hstops | ⟨-, herror⟩⟩ := skip_passes r
  · cases (h.symm.trans heq).trans (skip_of_stops hstops)
    exact ⟨hstops, gap, hpasses, hgap⟩
  · cases (h.symm.trans heq).trans herror

section Literals

def isDigit (radix : Nat) (c : Char) : Bool :=
  (Text.digit? radix c).isSome

inductive Escapes (next : Option Char) : List Char → UInt8 → Prop where
  | letter {c : Char} {b : UInt8} (hc : escapedLetter? c = some b) : Escapes next [c] b
  | hex {ds : List Char} (hne : ds ≠ []) (hds : ∀ d ∈ ds, isDigit 16 d = true)
    (hnext : ∀ d ∈ next, isDigit 16 d = false) : Escapes next ('x' :: ds) (lowByte 16 ds)
  | octal {c : Char} {ds : List Char} (hds : ∀ d ∈ c :: ds, isDigit 8 d = true) (hshort : ds.length ≤ 2)
    (hnext : ds.length = 2 ∨ ∀ d ∈ next, isDigit 8 d = false) : Escapes next (c :: ds) (lowByte 8 (c :: ds))

inductive Closes (mark : Char) : List Char → List UInt8 → Prop where
  | close : Closes mark [mark] []
  | char {c : Char} {cs : List Char} {bytes : List UInt8} (hline : c ≠ '\n') (hmark : c ≠ mark) (hslash : c ≠ '\\')
    (h : Closes mark cs bytes) : Closes mark (c :: cs) (Text.Utf8.encode [c] ++ bytes)
  | escape {e cs : List Char} {b : UInt8} {bytes : List UInt8} (he : Escapes cs.head? e b) (h : Closes mark cs bytes) :
    Closes mark ('\\' :: (e ++ cs)) (b :: bytes)

variable {radix start : Nat} {c : Char} {cs ds e rest : List Char} {b : UInt8} {p : Position} {r : Reader}

theorem isDigit_of_escapedLetter? (h : escapedLetter? c = some b) : isDigit 8 c = false ∧ c ≠ '\n' := by
  unfold escapedLetter? at h
  split at h
  case h_12 => cases h
  all_goals exact ⟨rfl, by decide⟩

theorem one_line_of_digits (h : ∀ d ∈ ds, isDigit radix d = true) : '\n' ∉ ds :=
  fun hmem => absurd (h '\n' hmem) Bool.false_ne_true

theorem Escapes.one_line {next : Option Char} (h : Escapes next e b) : '\n' ∉ e := by
  cases h with
  | letter hc => simpa using (isDigit_of_escapedLetter? hc).2.symm
  | hex _ hds _ => simpa using one_line_of_digits hds
  | octal hds _ _ => exact one_line_of_digits hds

theorem mem_digits {d : Char} (h : d ∈ digits radix cs) : isDigit radix d = true :=
  List.all_eq_true.mp List.all_takeWhile d h

theorem length_digits_take {n : Nat} : (digits radix (cs.take n)).length ≤ n :=
  Nat.le_trans (List.takeWhile_prefix _).length_le (List.length_take_le n cs)

theorem passes_digits (c : Char) (hds : ∀ d ∈ ds, isDigit radix d = true) (hfront : ds <+: cs) :
    Reader.Passes ⟨c :: cs, p⟩ (c :: ds) ⟨cs.drop ds.length, (p.past c).right ds.length⟩ := by
  obtain ⟨rest, rfl⟩ := hfront
  refine Reader.Passes.cons c ⟨by simp, ?_⟩
  exact (Position.after_of_one_line (one_line_of_digits hds)).symm

theorem escape_passes (h : escape start p cs = .ok (b, r)) :
    ∃ e, Escapes r.rest.head? e b ∧ Reader.Passes ⟨cs, p⟩ e r := by
  cases cs with
  | nil => cases h
  | cons c cs =>
    simp only [escape] at h
    split at h
    next b hb =>
      cases h
      exact ⟨[c], .letter hb, (Reader.Passes.refl _).cons c⟩
    next hletter =>
      split at h
      next hx =>
        cases eq_of_beq hx
        split at h
        next => cases h
        next hne =>
          cases h
          refine ⟨'x' :: digits 16 cs, .hex (by simpa using hne) (fun d => mem_digits) ?_, ?_⟩
          · rw [digits, Text.drop_length_takeWhile]
            exact Text.head?_dropWhile _ _
          · exact passes_digits 'x' (fun d => mem_digits) (List.takeWhile_prefix _)
      next =>
        split at h
        next hc =>
          cases h
          have hds : ∀ d ∈ digits 8 (cs.take 2), isDigit 8 d = true := fun d => mem_digits
          have hfront : digits 8 (cs.take 2) <+: cs := (List.takeWhile_prefix _).trans (List.take_prefix 2 cs)
          refine ⟨c :: digits 8 (cs.take 2), .octal (List.forall_mem_cons.mpr ⟨hc, hds⟩) ?_ ?_, passes_digits c hds hfront⟩
          · exact length_digits_take
          · refine Decidable.or_iff_not_imp_left.mpr fun hne d hd => ?_
            have hlt := Nat.lt_of_le_of_ne length_digits_take hne
            apply Text.head?_dropWhile (isDigit 8) (cs.take 2) d
            rw [← Text.drop_length_takeWhile, List.head?_drop]
            rw [List.head?_drop] at hd
            exact (List.getElem?_take_of_lt hlt).trans hd
        next => cases h

theorem escape_append (h : Escapes rest.head? e b) (start : Nat) (p : Position) :
    escape start p (e ++ rest) = .ok (b, ⟨rest, p.after e⟩) := by
  cases h with
  | letter hc =>
    simp only [List.singleton_append, escape, hc]
    rfl
  | @hex ds hne hds hnext =>
    have hdigits : digits 16 (ds ++ rest) = ds := Text.takeWhile_append_of_head hds hnext
    have hletter : escapedLetter? 'x' = none := rfl
    have hpos : p.after ('x' :: ds) = (p.past 'x').right ds.length := Position.after_of_one_line (one_line_of_digits hds)
    simp [escape, hletter, hdigits, hne, hpos]
  | @octal c ds hds hshort hnext =>
    have hdigits : digits 8 ((ds ++ rest).take 2) = ds := by
      rw [List.take_append, List.take_of_length_le hshort]
      refine Text.takeWhile_append_of_head (fun d hd => hds d (.tail c hd)) fun d hd => ?_
      rcases hnext with hfull | hnext
      · simp [hfull] at hd
      · rw [List.head?_take] at hd
        split at hd
        · cases hd
        · exact hnext d hd
    have hc := hds c (.head ds)
    have hletter : escapedLetter? c = none := by
      cases hletter : escapedLetter? c with
      | none => rfl
      | some b => cases (isDigit_of_escapedLetter? hletter).1.symm.trans hc
    have hx : (c == 'x') = false := by
      rw [beq_eq_false_iff_ne]
      rintro rfl
      cases hc
    have hpos : p.after (c :: ds) = (p.past c).right ds.length :=
      Position.after_of_one_line (one_line_of_digits fun d hd => hds d (.tail c hd))
    rw [isDigit] at hc
    simp [escape, hletter, hx, hc, hdigits, hpos]

theorem Closes.ends {mark : Char} {bytes : List UInt8} (h : Closes mark cs bytes) : cs.getLast? = some mark := by
  induction h with
  | close => rfl
  | char _ _ _ _ ih => simp [List.getLast?_cons, ih]
  | escape _ _ ih => simp [List.getLast?_cons, List.getLast?_append, ih]

theorem Closes.one_line {mark : Char} {bytes : List UInt8} (hmark : mark ≠ '\n') (h : Closes mark cs bytes) : '\n' ∉ cs := by
  induction h with
  | close => simpa using hmark.symm
  | char hline _ _ _ ih => simpa using ⟨hline.symm, ih⟩
  | escape he _ ih => simpa using ⟨he.one_line, ih⟩

theorem quoted_passes {mark : Char} {bytes : List UInt8} {r' : Reader} (h : quoted mark start r = .ok (bytes, r')) :
    ∃ cs, Closes mark cs bytes ∧ r.Passes cs r' := by
  fun_induction quoted mark start r generalizing bytes r' with
  | case1 => cases h
  | case2 => cases h
  | case3 c cs p _ hmark =>
    cases h
    cases eq_of_beq hmark
    exact ⟨[mark], .close, (Reader.Passes.refl _).cons mark⟩
  | case4 => cases h
  | case5 c cs p _ _ hslash b r hr ih =>
    cases eq_of_beq hslash
    obtain ⟨_, hq, heq⟩ := map_eq_ok h
    cases heq
    obtain ⟨w, hw, hpasses⟩ := ih hq
    obtain ⟨e, he, hescape⟩ := escape_passes hr
    have hhead : r.rest.head? = w.head? := by
      cases w with
      | nil => cases hw
      | cons d w => rw [hpasses.text, List.cons_append, List.head?_cons, List.head?_cons]
    rw [hhead] at he
    exact ⟨'\\' :: (e ++ w), .escape he hw, (hescape.trans hpasses).cons '\\'⟩
  | case6 c cs p hline hmark hslash ih =>
    obtain ⟨_, hq, heq⟩ := map_eq_ok h
    cases heq
    obtain ⟨w, hw, hpasses⟩ := ih hq
    simp only [beq_iff_eq] at hline hmark hslash
    exact ⟨c :: w, .char hline hmark hslash hw, hpasses.cons c⟩

theorem quoted_of_closes {mark : Char} {bytes : List UInt8} (hline : mark ≠ '\n') (hslash : mark ≠ '\\')
    (h : Closes mark cs bytes) (start : Nat) (p : Position) :
    quoted mark start ⟨cs, p⟩ = .ok (bytes, ⟨[], p.after cs⟩) := by
  induction h generalizing p with
  | close =>
    rw [quoted, if_neg (by simpa using hline), if_pos (beq_self_eq_true mark)]
    rfl
  | char hline hmark hslash h ih =>
    rw [quoted, if_neg (by simpa using hline), if_neg (by simpa using hmark), if_neg (by simpa using hslash), ih]
    rfl
  | @escape e cs b bytes he h ih =>
    have hescape := escape_append he start (p.past '\\')
    have hafter : p.after ('\\' :: (e ++ cs)) = ((p.past '\\').after e).after cs := Position.after_append _ e cs
    rw [quoted, if_neg (by decide), if_neg (by simpa using hslash.symm), if_pos (by decide), hafter]
    split
    next hr => cases hescape.symm.trans hr
    next hr =>
      cases hescape.symm.trans hr
      rw [ih]
      rfl

end Literals

section Tokens

inductive Spells : List Char → Token → Prop where
  | word {c : Char} {cs : List Char} (hc : isIdentStart c) (hcs : ∀ d ∈ cs, isIdentChar d) :
    Spells (c :: cs) (word (c :: cs))
  | number {c : Char} {cs : List Char} {n : Nat} (hc : isIdentStart c = false) (hcs : ∀ d ∈ c :: cs, isIdentChar d)
    (hn : number? (c :: cs) = some n) (hlt : n < 0x100000000) : Spells (c :: cs) (.int (UInt32.ofNat n).toInt32)
  | string {cs : List Char} {bytes : List UInt8} (h : Closes '"' cs bytes) : Spells ('"' :: cs) (.str bytes)
  | character {cs : List Char} {b : UInt8} (h : Closes '\'' cs [b]) : Spells ('\'' :: cs) (.int b.toUInt32.toInt32)
  | punct (m : Punct) : Spells [m.char] (.punct m)
  | op {cs : List Char} {op : Operator} (h : (cs, op) ∈ Operator.table) : Spells cs (.op op)

variable {start : Nat} {c : Char} {cs : List Char} {t : Token} {p : Position} {r r' : Reader}

theorem isIdentChar_of_isIdentStart (h : isIdentStart c) : isIdentChar c := by
  simp only [isIdentStart, isIdentChar, Char.isAlphanum, Bool.or_eq_true] at *
  exact h.imp_left .inl

theorem one_line_of_isIdentChar (h : ∀ d ∈ cs, isIdentChar d) : '\n' ∉ cs ∧ '\r' ∉ cs :=
  ⟨fun hmem => absurd (h '\n' hmem) (by decide), fun hmem => absurd (h '\r' hmem) (by decide)⟩

theorem wordOrNumber_passes (hc : isIdentChar c) (h : wordOrNumber c cs p = .ok (t, r)) :
    ∃ w, Spells (c :: w) t ∧ Reader.Passes ⟨c :: cs, p⟩ (c :: w) r := by
  have hcs : ∀ d ∈ cs.takeWhile isIdentChar, isIdentChar d := List.all_eq_true.mp List.all_takeWhile
  have hpos : p.right (c :: cs.takeWhile isIdentChar).length = p.after (c :: cs.takeWhile isIdentChar) :=
    (Position.after_of_one_line (one_line_of_isIdentChar (List.forall_mem_cons.mpr ⟨hc, hcs⟩)).1).symm
  refine ⟨cs.takeWhile isIdentChar, ?_⟩
  simp only [wordOrNumber] at h
  by_cases hstart : isIdentStart c
  · rw [if_pos hstart] at h
    cases h
    exact ⟨.word hstart hcs, by simp, hpos⟩
  · rw [if_neg hstart, number] at h
    split at h
    next => cases h
    next n hn =>
      split at h
      next hlt =>
        cases h
        exact ⟨.number (eq_false_of_ne_true hstart) (List.forall_mem_cons.mpr ⟨hc, hcs⟩) hn hlt, by simp, hpos⟩
      next => cases h

theorem operatorChars_passes (n : Nat) (cs : List Char) (r : Reader) :
    ∃ w, (operatorChars n cs r).1 = cs ++ w ∧ r.Passes w (operatorChars n cs r).2 := by
  fun_induction operatorChars n cs r with
  | case1 n cs c rest p _ ih =>
    obtain ⟨w, hw, hpasses⟩ := ih
    exact ⟨c :: w, by simpa using hw, hpasses.cons c⟩
  | case2 | case3 => exact ⟨[], by simp, .refl _⟩

theorem mem_table_of_ofChars? {op : Operator} (h : Operator.ofChars? cs = some op) : (cs, op) ∈ Operator.table := by
  rw [Operator.ofChars?, Option.map_eq_some_iff] at h
  obtain ⟨⟨cs', op⟩, hfind, rfl⟩ := h
  have htext := List.find?_some hfind
  cases eq_of_beq htext
  exact List.mem_of_find?_eq_some hfind

theorem operator_passes (h : operator start c ⟨cs, p.past c⟩ = .ok (t, r)) :
    ∃ w, Spells (c :: w) t ∧ Reader.Passes ⟨c :: cs, p⟩ (c :: w) r := by
  obtain ⟨w, hw, hpasses⟩ := operatorChars_passes 2 [c] ⟨cs, p.past c⟩
  unfold operator at h
  split at h
  next text r' hr =>
    rw [hr] at hw hpasses
    cases hw
    split at h
    next op hop =>
      cases h
      exact ⟨w, .op (mem_table_of_ofChars? hop), hpasses.cons c⟩
    next => cases h

theorem token_passes (h : token c cs p = .ok (t, r)) :
    ∃ w, Spells (c :: w) t ∧ Reader.Passes ⟨c :: cs, p⟩ (c :: w) r := by
  unfold token at h
  split at h
  next hc => exact wordOrNumber_passes hc h
  next =>
    split at h
    next hc =>
      cases eq_of_beq hc
      obtain ⟨_, hq, heq⟩ := map_eq_ok h
      cases heq
      obtain ⟨w, hw, hpasses⟩ := quoted_passes hq
      exact ⟨w, .string hw, hpasses.cons '"'⟩
    next =>
      split at h
      next hc =>
        cases eq_of_beq hc
        unfold character at h
        split at h
        next => cases h
        next b r' hq =>
          cases h
          obtain ⟨w, hw, hpasses⟩ := quoted_passes hq
          exact ⟨w, .character hw, hpasses.cons '\''⟩
        next => cases h
      next =>
        split at h
        next m hm =>
          cases h
          have hchar := List.find?_some hm
          cases eq_of_beq hchar
          exact ⟨[], .punct m, (Reader.Passes.refl _).cons m.char⟩
        next => exact operator_passes h

theorem one_line_of_mem_table : ∀ e ∈ Operator.table, e.1 ≠ [] ∧ '\n' ∉ e.1 ∧ '\r' ∉ e.1 := by
  decide

theorem token_of_mem_table :
    ∀ e ∈ Operator.table, ∀ c w, e.1 = c :: w → ∀ p, token c w p = .ok (.op e.2, ⟨[], p.after (c :: w)⟩) := by
  simp only [Operator.table, List.forall_mem_cons, List.not_mem_nil, false_imp_iff, implies_true, and_true]
  and_intros
  all_goals
    rintro c w ⟨⟩ p
    rfl

theorem token_of_isIdentChar {stop : Position} (hcs : ∀ d ∈ c :: cs, isIdentChar d) (hstop : stop = p.after (c :: cs))
    (ht : (if isIdentStart c then .ok (word (c :: cs)) else number p.col stop (c :: cs)) = .ok t) :
    token c cs p = .ok (t, ⟨[], stop⟩) := by
  have hident := List.forall_mem_cons.mp hcs
  have htake : cs.takeWhile isIdentChar = cs := by
    have happend : (cs ++ []).takeWhile isIdentChar = cs ++ [] := List.takeWhile_append_of_pos hident.2
    rwa [List.append_nil] at happend
  have hdrop : cs.dropWhile isIdentChar = [] := by rw [← Text.drop_length_takeWhile, htake, List.drop_length]
  rw [Position.after_of_one_line (one_line_of_isIdentChar hcs).1] at hstop
  rw [token, if_pos hident.1, wordOrNumber, htake, hdrop, ← hstop, ht]
  rfl

theorem token_of_spells (h : Spells (c :: cs) t) (p : Position) : token c cs p = .ok (t, ⟨[], p.after (c :: cs)⟩) := by
  cases h with
  | word hc hcs =>
    exact token_of_isIdentChar (List.forall_mem_cons.mpr ⟨isIdentChar_of_isIdentStart hc, hcs⟩) rfl (if_pos hc)
  | number hc hcs hn hlt =>
    refine token_of_isIdentChar hcs rfl ?_
    rw [if_neg (by simp [hc]), number, hn]
    exact if_pos hlt
  | string h =>
    rw [token, if_neg (by decide), if_pos (by decide), quoted_of_closes (by decide) (by decide) h]
    rfl
  | character h =>
    rw [token, if_neg (by decide), if_neg (by decide), if_pos (by decide), character,
      quoted_of_closes (by decide) (by decide) h]
    rfl
  | punct m => cases m <;> rfl
  | op h => exact token_of_mem_table _ h c cs rfl p

theorem Spells.ne_eof (h : Spells cs t) : t ≠ .eof := by
  cases h with
  | word =>
    simp only [Lexer.word]
    split <;> simp
  | _ => simp

theorem Spells.ne_nil (h : Spells cs t) : cs ≠ [] := by
  cases h with
  | op h => exact (one_line_of_mem_table _ h).1
  | _ => simp

theorem Spells.one_line (h : Spells cs t) : '\n' ∉ cs ∧ cs.getLast? ≠ some '\r' := by
  have hlast : '\r' ∉ cs → cs.getLast? ≠ some '\r' := fun hmem h => hmem (List.mem_of_getLast? h)
  cases h with
  | word hc hcs =>
    have h := one_line_of_isIdentChar (List.forall_mem_cons.mpr ⟨isIdentChar_of_isIdentStart hc, hcs⟩)
    exact ⟨h.1, hlast h.2⟩
  | number _ hcs _ _ =>
    have h := one_line_of_isIdentChar hcs
    exact ⟨h.1, hlast h.2⟩
  | string h | character h => exact ⟨by simpa using h.one_line (by decide), by simp [List.getLast?_cons, h.ends]⟩
  | punct m => cases m <;> decide
  | op h =>
    have h := one_line_of_mem_table _ h
    exact ⟨h.2.1, hlast h.2.2⟩

end Tokens

section Next

theorem Stops.of_append {a b : List Char} (h : Stops (a ++ b)) : Stops a := by
  rintro c rest rfl
  obtain ⟨hblank, hslash⟩ := h c (rest ++ b) rfl
  refine ⟨hblank, fun hc => ?_⟩
  cases rest with
  | nil => simp
  | cons d rest => exact hslash hc

/-- A reader gets from `r` to `r'` over blanks and comments, and then over the characters of a token. -/
inductive Reads (r : Reader) : Lexeme → Reader → Prop where
  | eof {gap : List Char} {p : Position} (hgap : r.Passes gap ⟨[], p⟩) (htrivia : Trivia true gap) :
    Reads r ⟨.eof, ⟨p.line, p.col, p.col⟩⟩ ⟨[], p⟩
  | token {gap piece rest : List Char} {p : Position} {t : Token} (hgap : r.Passes gap ⟨piece ++ rest, p⟩)
    (htrivia : Trivia false gap) (hstops : Stops piece) (hspells : Spells piece t) :
    Reads r ⟨t, ⟨p.line, p.col, p.col + piece.length⟩⟩ ⟨rest, p.right piece.length⟩

variable {r r' : Reader} {l : Lexeme}

theorem reads_of_next (h : next r = .ok (l, r')) : Reads r l r' := by
  unfold next at h
  split at h
  next => cases h
  next p hskip =>
    cases h
    obtain ⟨_, gap, hgap, htrivia⟩ := skip_eq_ok hskip
    exact .eof hgap htrivia
  next c cs p hskip =>
    obtain ⟨hstops, gap, hgap, htrivia⟩ := skip_eq_ok hskip
    obtain ⟨⟨t, rest, q⟩, htoken, heq⟩ := map_eq_ok h
    cases heq
    obtain ⟨w, hspells, htext, hpos⟩ := token_passes htoken
    cases htext
    obtain rfl : q = p.right (c :: w).length := hpos.trans (Position.after_of_one_line hspells.one_line.1)
    exact .token hgap htrivia hstops.of_append hspells

def isIdent : List Char → Bool
  | [] => false
  | c :: cs => isIdentStart c && cs.all isIdentChar

theorem isIdent_of_next {x : String} (h : next r = .ok (l, r')) (hx : l.token = .ident x) : isIdent x.toList := by
  cases reads_of_next h with
  | eof => cases hx
  | token _ _ _ hspells =>
    dsimp only at hx
    cases hspells with
    | word hc hcs =>
      simp only [Lexer.word] at hx
      split at hx
      next => cases hx
      next =>
        cases hx
        rw [String.toList_ofList, isIdent, hc, Bool.true_and, List.all_eq_true]
        exact hcs
    | _ => cases hx

end Next

end Lexer
end Handheld.Source
