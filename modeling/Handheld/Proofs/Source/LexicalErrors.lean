import Handheld.Proofs.Source.Spans

/-!
Where a text that cannot be read in tokens is said to fail: at the first character of the token, or on the next line if
that is a literal that a line feed breaks.
-/
namespace Handheld.Source

namespace Lexer

inductive Broken (mark : Char) : List Char → Prop where
  | line (cs : List Char) : Broken mark ('\n' :: cs)
  | escapedLine (cs : List Char) : Broken mark ('\\' :: '\n' :: cs)
  | char {c : Char} {cs : List Char} (hline : c ≠ '\n') (hmark : c ≠ mark) (hslash : c ≠ '\\') (h : Broken mark cs) :
    Broken mark (c :: cs)
  | escape {e cs : List Char} {b : UInt8} (he : Escapes cs.head? e b) (h : Broken mark cs) : Broken mark ('\\' :: (e ++ cs))

def BrokenLiteral (c : Char) (cs : List Char) : Prop :=
  (c = '"' ∨ c = '\'') ∧ Broken c cs

/-- An error of a token that starts at a column of a line: it is put on that line, or on the next one. -/
structure Located (col line : Nat) (broken : Prop) (e : Error) : Prop where
  start : e.span.start = col
  nonempty : col < e.span.stop
  line : e.span.line = line ∨ broken ∧ e.span.line = line + 1

variable {c mark : Char} {cs : List Char} {start line : Nat} {p : Position} {r r' : Reader} {e : Error} {broken : Prop}

theorem located_errorHere {problem : Problem} (h : p.line = line ∨ broken ∧ p.line = line + 1) :
    Located start line broken (errorHere start p problem) :=
  ⟨rfl, Nat.lt_of_lt_of_le (Nat.lt_succ_self start) (Nat.le_max_right p.col (start + 1)), h⟩

theorem Located.imp {broken' : Prop} (h : Located start line broken e) (himp : broken → broken') :
    Located start line broken' e :=
  ⟨h.start, h.nonempty, h.line.imp_right (And.imp_left himp)⟩

theorem line_past (hc : c ≠ '\n') : (p.past c).line = p.line := by
  rw [Position.past, if_neg (by simpa using hc)]

theorem line_of_passes (h : r.Passes cs r') (hline : '\n' ∉ cs) : r'.pos.line = r.pos.line := by
  rw [h.pos, Position.after_of_one_line hline]
  rfl

theorem located_of_escape (h : escape start p cs = .error e) : Located start p.line (cs.head? = some '\n') e := by
  cases cs with
  | nil =>
    cases h
    exact located_errorHere (.inl rfl)
  | cons c cs =>
    simp only [escape] at h
    split at h
    next => cases h
    next =>
      split at h
      next hx =>
        split at h
        next =>
          cases h
          cases eq_of_beq hx
          exact located_errorHere (.inl rfl)
        next => cases h
      next =>
        split at h
        next => cases h
        next =>
          cases h
          by_cases hc : c = '\n'
          · subst hc
            exact located_errorHere (.inr ⟨rfl, rfl⟩)
          · exact located_errorHere (.inl (line_past hc))

theorem map_eq_error {α β : Type} {x : Except Error α} {f : α → β} (h : x.map f = .error e) : x = .error e := by
  cases x with
  | error e' => exact congrArg Except.error (Except.error.inj h)
  | ok a => cases h

theorem located_of_quoted (h : quoted mark start r = .error e) : Located start r.pos.line (Broken mark r.rest) e := by
  fun_induction quoted mark start r with
  | case1 p =>
    cases h
    exact located_errorHere (.inl rfl)
  | case2 c cs p hc =>
    cases h
    cases eq_of_beq hc
    exact located_errorHere (.inr ⟨.line cs, rfl⟩)
  | case3 => cases h
  | case4 c cs p _ _ hslash e' hescape =>
    cases h
    cases eq_of_beq hslash
    refine (located_of_escape hescape).imp fun hhead => ?_
    obtain ⟨cs', rfl⟩ := List.head?_eq_some_iff.mp hhead
    exact .escapedLine cs'
  | case5 c cs p _ _ hslash b r hr ih =>
    cases eq_of_beq hslash
    obtain ⟨w, he, hpasses⟩ := escape_passes hr
    have hlocated := ih (map_eq_error h)
    rw [line_of_passes hpasses he.one_line] at hlocated
    refine hlocated.imp fun hbroken => ?_
    rw [show cs = w ++ r.rest from hpasses.text]
    exact .escape he hbroken
  | case6 c cs p hline hmark hslash ih =>
    simp only [beq_iff_eq] at hline hmark hslash
    have hlocated := ih (map_eq_error h)
    rw [line_past hline] at hlocated
    exact hlocated.imp (.char hline hmark hslash)

theorem quoted_of_broken (hslash : mark ≠ '\\') (h : Broken mark cs) (start : Nat) (p : Position) :
    ∃ e, quoted mark start ⟨cs, p⟩ = .error e ∧ e.span.line = p.line + 1 := by
  induction h generalizing p with
  | line cs =>
    rw [quoted, if_pos (by decide)]
    exact ⟨_, rfl, rfl⟩
  | escapedLine cs =>
    rw [quoted, if_neg (by decide), if_neg (by simpa using hslash.symm), if_pos (by decide)]
    exact ⟨_, rfl, rfl⟩
  | @char c cs hc hmark hslash h ih =>
    obtain ⟨e, he, hspan⟩ := ih (p.past c)
    rw [line_past hc] at hspan
    rw [quoted, if_neg (by simpa using hc), if_neg (by simpa using hmark), if_neg (by simpa using hslash), he]
    exact ⟨e, rfl, hspan⟩
  | @escape e cs b he h ih =>
    obtain ⟨e', he', hspan⟩ := ih ((p.past '\\').after e)
    have hescape := escape_append he start (p.past '\\')
    rw [Position.after_of_one_line he.one_line] at hspan
    rw [quoted, if_neg (by decide), if_neg (by simpa using hslash.symm), if_pos (by decide)]
    split
    next hr => cases hescape.symm.trans hr
    next hr =>
      cases hescape.symm.trans hr
      rw [he']
      exact ⟨e', rfl, hspan⟩

theorem line_of_broken (hc : c = '"' ∨ c = '\'') (hbroken : Broken c cs) (h : token c cs p = .error e) :
    e.span.line = p.line + 1 := by
  rcases hc with rfl | rfl
  · obtain ⟨e', he', hline⟩ := quoted_of_broken (by decide) hbroken p.col (p.past '"')
    rw [token, if_neg (by decide), if_pos (by decide), he'] at h
    cases h
    exact hline
  · obtain ⟨e', he', hline⟩ := quoted_of_broken (by decide) hbroken p.col (p.past '\'')
    rw [token, if_neg (by decide), if_neg (by decide), if_pos (by decide), character, he'] at h
    cases h
    exact hline

theorem one_line_operatorChars (n : Nat) (cs : List Char) (r : Reader) : (operatorChars n cs r).2.pos.line = r.pos.line := by
  fun_induction operatorChars n cs r with
  | case1 n cs c rest p hstarts ih =>
    rw [ih]
    refine line_past ?_
    rintro rfl
    obtain ⟨⟨text, op⟩, hmem, hpre⟩ := List.any_eq_true.mp hstarts
    exact (one_line_of_mem_table _ hmem).2.1 ((List.isPrefixOf_iff_prefix.mp hpre).mem (by simp))
  | case2 => rfl
  | case3 => rfl

theorem located_of_token (hblank : Text.isBlank c = false) (h : token c cs p = .error e) :
    Located p.col p.line (BrokenLiteral c cs) e := by
  have hline : (p.past c).line = p.line := line_past fun hc => by rw [hc] at hblank; cases hblank
  unfold token at h
  split at h
  next =>
    have h := map_eq_error h
    split at h
    next => cases h
    next =>
      unfold number at h
      split at h
      next =>
        cases h
        exact located_errorHere (.inl rfl)
      next =>
        split at h
        next => cases h
        next =>
          cases h
          exact ⟨rfl, Nat.lt_add_of_pos_right (Nat.succ_pos _), .inl rfl⟩
  next =>
    split at h
    next hc =>
      have hlocated := located_of_quoted (map_eq_error h)
      rw [hline] at hlocated
      exact hlocated.imp fun hbroken => ⟨.inl (eq_of_beq hc), hbroken⟩
    next =>
      split at h
      next hc =>
        cases eq_of_beq hc
        unfold character at h
        split at h
        next hq =>
          cases h
          have hlocated := located_of_quoted hq
          exact hlocated.imp fun hbroken => ⟨.inr rfl, hbroken⟩
        next => cases h
        next bytes r' _ hq =>
          cases h
          obtain ⟨w, hw, hpasses⟩ := quoted_passes hq
          exact located_errorHere (.inl (line_of_passes hpasses (hw.one_line (by decide))))
      next =>
        split at h
        next => cases h
        next =>
          have hpos := one_line_operatorChars 2 [c] ⟨cs, p.past c⟩
          unfold operator at h
          split at h
          next text r hr =>
            rw [hr, hline] at hpos
            split at h
            next => cases h
            next =>
              cases h
              exact located_errorHere (.inl hpos)

inductive Leads : Reader → Reader → Prop where
  | gap {r r' : Reader} {gap : List Char} (hgap : r.Passes gap r') (htrivia : Trivia false gap) : Leads r r'
  | token {r r1 r' : Reader} {l : Lexeme} (h : Reads r l r1) (hl : l.token ≠ .eof) (hrest : Leads r1 r') : Leads r r'

theorem Leads.passes (h : Leads r r') : ∃ front, r.Passes front r' := by
  induction h with
  | gap hgap => exact ⟨_, hgap⟩
  | token h _ _ ih =>
    obtain ⟨front, hfront⟩ := h.passes
    obtain ⟨rest, hrest⟩ := ih
    exact ⟨front ++ rest, hfront.trans hrest⟩

/-- A reader in front of a token, or of the opening of a comment, that it cannot read. -/
structure Fails (r : Reader) (c : Char) (cs : List Char) (e : Error) : Prop where
  text : r.rest = c :: cs
  starts : Stops (c :: cs) ∨ ∃ body, c :: cs = '/' :: '*' :: body
  next : next r = .error e
  located : Located r.pos.col r.pos.line (BrokenLiteral c cs) e
  nextLine : BrokenLiteral c cs → e.span.line = r.pos.line + 1

theorem fails_of_next (h : next r = .error e) : ∃ r' c cs, Leads r r' ∧ Fails r' c cs e := by
  obtain ⟨gap, ⟨cs, p⟩, hpasses, hgap, heq, hends⟩ := skip_passes r
  have hnext : next r = next ⟨cs, p⟩ := by rw [next, next, heq]
  rw [hnext] at h
  cases cs with
  | nil => rw [next_nil] at h; cases h
  | cons c cs =>
    have hleads : Leads r ⟨c :: cs, p⟩ := .gap hpasses hgap
    rcases hends with hstops | ⟨⟨body, hbody⟩, herror⟩
    · have htoken : token c cs p = .error e := by
        rw [next, skip_of_stops hstops] at h
        exact map_eq_error h
      exact ⟨_, c, cs, hleads, rfl, .inl hstops, h, located_of_token (hstops c cs rfl).1 htoken,
        fun hbroken => line_of_broken hbroken.1 hbroken.2 htoken⟩
    · cases hbody
      refine ⟨_, '/', _, hleads, rfl, .inr ⟨body, rfl⟩, h, ?_, ?_⟩
      · rw [next, herror] at h
        cases h
        exact ⟨rfl, Nat.lt_add_of_pos_right (Nat.succ_pos 1), .inl rfl⟩
      · rintro ⟨hc | hc, -⟩ <;> cases hc

theorem fails_of_tokens {ls : List Lexeme} (h : tokens r = (ls, .error e)) : ∃ r' c cs, Leads r r' ∧ Fails r' c cs e := by
  fun_induction tokens r generalizing ls with
  | case1 r e' hnext =>
    cases h
    exact fails_of_next hnext
  | case2 => cases h
  | case3 r l r' hnext hl ls' final htokens ih =>
    cases h
    obtain ⟨r'', c, cs, hleads, hfails⟩ := ih htokens
    exact ⟨r'', c, cs, .token (reads_of_next hnext) hl hleads, hfails⟩

end Lexer

open Lexer

/-- The report of an error shows a line that has `c` at the error's column. -/
def Shows (source : String) (e : Error) (c : Char) : Prop :=
  ∃ line, (Text.lines source)[e.span.line - 1]? = some line ∧ line.toList[e.span.start]? = some c
    ∧ e.diagnostic source
      = "error: " ++ e.headline ++ "\n" ++ s!" --> {e.span.line}:{e.span.start + 1}\n" ++ e.excerpt line

theorem shows_of_text {source : String} {e : Error} {c : Char} {front cs : List Char}
    (htext : source.toList = front ++ c :: cs) (hc : c ≠ '\n' ∧ c ≠ '\r') (hline : e.span.line = (Position.after {} front).line)
    (hstart : e.span.start = (Position.after {} front).col) : Shows source e c := by
  obtain ⟨n, start, tail, hn, hlength, hlines⟩ := line_of_piece (List.cons_ne_nil c []) (by simpa using hc.1.symm)
    (by simpa using hc.2) front cs [] {} rfl
  have hrow : e.span.line = 1 + n := hline.trans hn
  have hshown : (Text.lines source)[e.span.line - 1]? = some (String.ofList (start ++ [c] ++ tail)) := by
    rw [Text.lines, List.getElem?_map, hrow, Nat.add_sub_cancel_left, htext]
    exact congrArg (Option.map String.ofList) hlines
  refine ⟨_, hshown, by simp [hstart, ← hlength], ?_⟩
  rw [Error.diagnostic, if_neg (by simp [hrow]), hshown]

theorem lexical_error_at_token {source : String} {e : Error} (h : lex source = .error e) :
    ∃ front c cs, source.toList = front ++ c :: cs
      ∧ Leads ⟨source.toList, {}⟩ ⟨c :: cs, Position.after {} front⟩
      ∧ Fails ⟨c :: cs, Position.after {} front⟩ c cs e
      ∧ (¬BrokenLiteral c cs → Shows source e c) := by
  have htokens : ∃ ls, tokens ⟨source.toList, {}⟩ = (ls, .error e) := by
    unfold lex at h
    split at h
    next ls final htokens => exact ⟨ls, htokens.trans (congrArg _ (map_eq_error h))⟩
  obtain ⟨ls, htokens⟩ := htokens
  obtain ⟨⟨rest, p⟩, c, cs, hleads, hfails⟩ := fails_of_tokens htokens
  obtain ⟨front, hpasses⟩ := hleads.passes
  cases hfails.text
  cases hpasses.pos
  refine ⟨front, c, cs, hpasses.text, hleads, hfails, fun hwhole => ?_⟩
  have hline := hfails.located.line.resolve_right fun hbroken => hwhole hbroken.1
  refine shows_of_text hpasses.text ?_ hline hfails.located.start
  rcases hfails.starts with hstops | ⟨body, hbody⟩
  · have hblank := (hstops c cs rfl).1
    constructor <;> rintro rfl <;> cases hblank
  · cases hbody
    decide

def badNumeral : String :=
  "a /* é\n*/ 0x8g;"

theorem lexical_error_at_token_badNumeral :
    lex badNumeral = .error ⟨.syntaxError, ⟨2, 3, 7⟩, "malformed number `0x8g`"⟩
      ∧ ∃ front c cs, badNumeral.toList = front ++ c :: cs
        ∧ Leads ⟨badNumeral.toList, {}⟩ ⟨c :: cs, Position.after {} front⟩
        ∧ Fails ⟨c :: cs, Position.after {} front⟩ c cs ⟨.syntaxError, ⟨2, 3, 7⟩, "malformed number `0x8g`"⟩
        ∧ (¬BrokenLiteral c cs → Shows badNumeral ⟨.syntaxError, ⟨2, 3, 7⟩, "malformed number `0x8g`"⟩ c) := by
  have hlex : lex badNumeral = .error ⟨.syntaxError, ⟨2, 3, 7⟩, "malformed number `0x8g`"⟩ := by decide +kernel
  exact ⟨hlex, lexical_error_at_token hlex⟩

/-- The literal is on the only line of the text. Its error is put on the second one, so that no line is shown. -/
theorem lexical_error_off_token :
    lex "\"ab\n" = .error ⟨.syntaxError, ⟨2, 0, 1⟩, "unterminated literal"⟩
      ∧ Text.lines "\"ab\n" = ["\"ab"]
      ∧ Error.diagnostic ⟨.syntaxError, ⟨2, 0, 1⟩, "unterminated literal"⟩ "\"ab\n"
        = "error: syntax error; unterminated literal\n --> 2:1\n" := by
  refine ⟨?_, ?_, ?_⟩ <;> decide +kernel

end Handheld.Source
