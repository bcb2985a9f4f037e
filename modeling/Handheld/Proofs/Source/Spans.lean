import Handheld.Proofs.Source.Lexing

/-!
Where tokens stand: their spans cover a text in order, up to blanks and comments.
-/
namespace Handheld

variable {piece : List Char}

namespace Text

theorem linesFrom_append_of_one_line (h : '\n' ∉ piece) (acc back : List Char) :
    linesFrom acc (piece ++ back) = linesFrom (piece.reverse ++ acc) back := by
  induction piece generalizing acc with
  | nil => rfl
  | cons c piece ih =>
    rw [List.mem_cons, not_or] at h
    rw [List.cons_append, linesFrom, if_neg (by simpa using Ne.symm h.1), ih h.2, List.reverse_cons, List.append_assoc]
    rfl

theorem dropReturn_append {a : List Char} (h : a.getLast? ≠ some '\r') (b : List Char) :
    ∃ tail, dropReturn (a ++ b) = a ++ tail := by
  unfold dropReturn
  split
  next hlast =>
    cases b with
    | nil => simp [h] at hlast
    | cons c b => exact ⟨(c :: b).dropLast, List.dropLast_append_of_ne_nil (List.cons_ne_nil c b)⟩
  next => exact ⟨b, rfl⟩

theorem linesFrom_starts {start : List Char} (hne : start ≠ []) (hlast : start.getLast? ≠ some '\r')
    (more back : List Char) :
    ∃ tail rest, linesFrom (more ++ start.reverse) back = (start ++ tail) :: rest := by
  induction back generalizing more with
  | nil => exact ⟨more.reverse, [], by simp [linesFrom, hne]⟩
  | cons c back ih =>
    rw [linesFrom]
    split
    next =>
      obtain ⟨tail, htail⟩ := dropReturn_append hlast more.reverse
      exact ⟨tail, linesFrom [] back, by simp [htail]⟩
    next => exact ih (c :: more)

end Text

namespace Source

open Lexer

theorem line_of_piece (hne : piece ≠ []) (hline : '\n' ∉ piece) (hlast : piece.getLast? ≠ some '\r')
    (front back acc : List Char) (p : Position) (hcol : acc.length = p.col) :
    ∃ n start tail, (p.after front).line = p.line + n ∧ start.length = (p.after front).col
      ∧ (Text.linesFrom acc (front ++ (piece ++ back)))[n]? = some (start ++ piece ++ tail) := by
  induction front generalizing acc p with
  | nil =>
    have hne' : acc.reverse ++ piece ≠ [] := by simp [hne]
    have hlast' : (acc.reverse ++ piece).getLast? ≠ some '\r' := by
      rw [List.getLast?_eq_some_getLast hne] at hlast
      rwa [List.getLast?_append, List.getLast?_eq_some_getLast hne]
    obtain ⟨tail, rest, hlines⟩ := Text.linesFrom_starts hne' hlast' [] back
    rw [List.nil_append, List.reverse_append, List.reverse_reverse] at hlines
    refine ⟨0, acc.reverse, tail, rfl, List.length_reverse.trans hcol, ?_⟩
    rw [List.nil_append, Text.linesFrom_append_of_one_line hline, hlines]
    rfl
  | cons c front ih =>
    rw [List.cons_append, Text.linesFrom]
    split
    next hc =>
      have hpast : p.past c = ⟨p.line + 1, 0⟩ := if_pos hc
      obtain ⟨n, start, tail, hn, hstart, hlines⟩ := ih [] (p.past c) (by simp [hpast])
      refine ⟨n + 1, start, tail, ?_, hstart, hlines⟩
      calc ((p.past c).after front).line
          _ = (p.past c).line + n := hn
          _ = p.line + (n + 1) := by rw [hpast, Nat.add_assoc, Nat.add_comm 1]
    next hc =>
      have hpast : p.past c = p.right 1 := if_neg hc
      obtain ⟨n, start, tail, hn, hstart, hlines⟩ := ih (c :: acc) (p.past c) (by simp [hpast, Position.right, hcol])
      refine ⟨n, start, tail, ?_, hstart, hlines⟩
      rw [hpast] at hn
      exact (congrArg (fun q => (Position.after q front).line) hpast).trans hn

namespace Lexer

inductive Holds : Reader → List Lexeme → Prop where
  | last {r r' : Reader} {l : Lexeme} (h : Reads r l r') (heof : l.token = .eof) : Holds r [l]
  | cons {r r' : Reader} {l : Lexeme} {ls : List Lexeme} (h : Reads r l r') (hl : l.token ≠ .eof) (hrest : Holds r' ls) :
    Holds r (l :: ls)

theorem holds_of_tokens {r : Reader} {ls : List Lexeme} {l : Lexeme} (h : tokens r = (ls, .ok l)) : Holds r (ls ++ [l]) := by
  fun_induction tokens r generalizing ls with
  | case1 => cases h
  | case2 r l r' hnext heof =>
    cases h
    exact .last (reads_of_next hnext) heof
  | case3 r l r' hnext hl ls' final htokens ih =>
    cases h
    exact .cons (reads_of_next hnext) hl (ih htokens)

theorem holds_of_lex {source : String} {ls : List Lexeme} (h : lex source = .ok ls) : Holds ⟨source.toList, {}⟩ ls := by
  unfold lex at h
  split at h
  next ls' final htokens =>
    cases final with
    | error e => cases h
    | ok l =>
      cases h
      exact holds_of_tokens htokens

theorem tokens_of_next {r r' : Reader} {l : Lexeme} (h : next r = .ok (l, r')) :
    tokens r = if l.token = .eof then ([], .ok l) else (l :: (tokens r').1, (tokens r').2) := by
  rw [tokens]
  split
  next hr => cases h.symm.trans hr
  next hr =>
    cases h.symm.trans hr
    rfl

theorem next_nil (p : Position) : next ⟨[], p⟩ = .ok (⟨.eof, ⟨p.line, p.col, p.col⟩⟩, ⟨[], p⟩) := by
  have hstops : Stops [] := by rintro c rest ⟨⟩
  rw [next, skip_of_stops hstops]

theorem lex_of_spells {t : Token} (hstops : Stops piece) (h : Spells piece t) :
    lex (String.ofList piece)
      = .ok [⟨t, ⟨1, 0, piece.length⟩⟩, ⟨.eof, ⟨1, piece.length, piece.length⟩⟩] := by
  have hpos : ({} : Position).after piece = ⟨1, piece.length⟩ := by
    rw [Position.after_of_one_line h.one_line.1, Position.right, Nat.zero_add]
  have hnext : next ⟨piece, {}⟩ = .ok (⟨t, ⟨1, 0, piece.length⟩⟩, ⟨[], ⟨1, piece.length⟩⟩) := by
    cases piece with
    | nil => exact absurd rfl h.ne_nil
    | cons c w =>
      rw [next, skip_of_stops hstops]
      simp only [token_of_spells h, hpos]
      rfl
  rw [lex, String.toList_ofList, tokens_of_next hnext, if_neg h.ne_eof, tokens_of_next (next_nil _)]
  rfl

end Lexer

def Span.opens (s : Span) : Position :=
  ⟨s.line, s.start⟩

def Span.closes (s : Span) : Position :=
  ⟨s.line, s.stop⟩

def Span.text (s : Span) (line : String) : List Char :=
  (line.toList.drop s.start).take (s.stop - s.start)

/-- A token stands on `line`: its characters there spell it, and they spell it too when nothing stands around them. -/
structure Stands (source : String) (l : Lexeme) (line : String) : Prop where
  onLine : 0 < l.span.line ∧ (Text.lines source)[l.span.line - 1]? = some line
  inside : l.span.start < l.span.stop ∧ l.span.stop ≤ line.length
  spelled : Spells (l.span.text line) l.token
  alone : lex (String.ofList (l.span.text line))
    = .ok [⟨l.token, ⟨1, 0, l.span.stop - l.span.start⟩⟩,
        ⟨.eof, ⟨1, l.span.stop - l.span.start, l.span.stop - l.span.start⟩⟩]

def Gap (source : String) (p q : Position) : Prop :=
  ∃ front gap back, source.toList = front ++ gap ++ back ∧ Position.after {} front = p
    ∧ Position.after {} (front ++ gap) = q ∧ Trivia back.isEmpty gap

def Position.Le (p q : Position) : Prop :=
  p.line < q.line ∨ p.line = q.line ∧ p.col ≤ q.col

structure Exact (source : String) (ls : List Lexeme) : Prop where
  stands : ∀ l ∈ ls, l.token ≠ .eof → ∃ line, Stands source l line
  ordered : ls.Pairwise fun a b => a.span.closes.Le b.span.opens
  front : ∀ l ∈ ls.head?, Gap source {} l.span.opens
  gaps : ls.IsChain fun a b => Gap source a.span.closes b.span.opens
  ends : ∃ ts p, ls = ts ++ [⟨.eof, ⟨p.line, p.col, p.col⟩⟩] ∧ p = Position.after {} source.toList
    ∧ ∀ l ∈ ts, l.token ≠ .eof

theorem Position.Le.trans {p q s : Position} (h : p.Le q) (h' : q.Le s) : p.Le s := by
  unfold Le at *
  omega

theorem Position.le_after (p : Position) (cs : List Char) : p.Le (p.after cs) := by
  induction cs generalizing p with
  | nil => exact .inr ⟨rfl, Nat.le_refl p.col⟩
  | cons c cs ih =>
    refine Le.trans ?_ (ih (p.past c))
    unfold past
    split
    · exact .inl (Nat.lt_succ_self p.line)
    · exact .inr ⟨rfl, Nat.le_succ p.col⟩

theorem Reader.Passes.le {r r' : Reader} {cs : List Char} (h : r.Passes cs r') : r.pos.Le r'.pos :=
  h.pos ▸ r.pos.le_after cs

namespace Lexer

variable {source : String} {r r' : Reader} {front : List Char} {l : Lexeme} {ls : List Lexeme}

namespace Reads

theorem closes (h : Reads r l r') : l.span.closes = r'.pos := by
  cases h <;> rfl

theorem passes (h : Reads r l r') : ∃ cs, r.Passes cs r' := by
  cases h with
  | eof hgap _ => exact ⟨_, hgap⟩
  | token hgap _ _ hspells =>
    exact ⟨_, hgap.trans ⟨rfl, (Position.after_of_one_line hspells.one_line.1).symm⟩⟩

theorem le (h : Reads r l r') : r.pos.Le l.span.opens := by
  cases h with
  | eof hgap _ => exact hgap.le
  | token hgap _ _ _ => exact hgap.le

theorem gap (h : Reads r l r') (hfront : Reader.Passes ⟨source.toList, {}⟩ front r) : Gap source r.pos l.span.opens := by
  cases h with
  | @eof gap p hgap htrivia =>
    have hpasses := hfront.trans hgap
    exact ⟨front, gap, [], hpasses.text, hfront.pos.symm, hpasses.pos.symm, htrivia⟩
  | @token gap piece rest p t hgap htrivia _ hspells =>
    have hpasses := hfront.trans hgap
    have hmore : (piece ++ rest).isEmpty = false := by simp [hspells.ne_nil]
    exact ⟨front, gap, piece ++ rest, hpasses.text, hfront.pos.symm, hpasses.pos.symm, hmore ▸ htrivia⟩

theorem stands (h : Reads r l r') (hfront : Reader.Passes ⟨source.toList, {}⟩ front r) (hl : l.token ≠ .eof) :
    ∃ line, Stands source l line := by
  cases h with
  | eof => exact absurd rfl hl
  | @token gap piece rest p t hgap htrivia hstops hspells =>
    have hpasses := hfront.trans hgap
    obtain ⟨n, start, tail, hn, hstart, hline⟩ :=
      line_of_piece hspells.ne_nil hspells.one_line.1 hspells.one_line.2 (front ++ gap) rest [] {} rfl
    rw [← hpasses.text] at hline
    have hcol : p.col = start.length := (congrArg Position.col hpasses.pos).trans hstart.symm
    have hrow : p.line = 1 + n := (congrArg Position.line hpasses.pos).trans hn
    have htext : Span.text ⟨p.line, p.col, p.col + piece.length⟩ (String.ofList (start ++ piece ++ tail)) = piece := by
      simp [Span.text, hcol]
    refine ⟨String.ofList (start ++ piece ++ tail), ⟨?_, ?_⟩, ⟨?_, ?_⟩, ?_, ?_⟩
    · simp [hrow]
    · rw [Text.lines, List.getElem?_map, hrow, Nat.add_sub_cancel_left, hline]
      rfl
    · exact Nat.lt_add_of_pos_right (List.length_pos_iff.mpr hspells.ne_nil)
    · simp [hcol]
    · rwa [htext]
    · rw [htext, Nat.add_sub_cancel_left]
      exact lex_of_spells hstops hspells

end Reads

namespace Holds

theorem stands (h : Holds r ls) (hfront : Reader.Passes ⟨source.toList, {}⟩ front r) :
    ∀ l ∈ ls, l.token ≠ .eof → ∃ line, Stands source l line := by
  induction h generalizing front with
  | last _ heof => exact List.forall_mem_singleton.mpr fun hl => absurd heof hl
  | cons h _ _ ih =>
    obtain ⟨cs, hcs⟩ := h.passes
    exact List.forall_mem_cons.mpr ⟨h.stands hfront, ih (hfront.trans hcs)⟩

theorem le (h : Holds r ls) : ∀ l ∈ ls, r.pos.Le l.span.opens := by
  induction h with
  | last h _ => exact List.forall_mem_singleton.mpr h.le
  | cons h _ _ ih =>
    obtain ⟨cs, hcs⟩ := h.passes
    exact List.forall_mem_cons.mpr ⟨h.le, fun l hl => hcs.le.trans (ih l hl)⟩

theorem ordered (h : Holds r ls) : ls.Pairwise fun a b => a.span.closes.Le b.span.opens := by
  induction h with
  | last => exact List.pairwise_singleton _ _
  | cons h _ hrest ih => exact List.pairwise_cons.mpr ⟨h.closes ▸ hrest.le, ih⟩

theorem gaps (h : Holds r ls) (hfront : Reader.Passes ⟨source.toList, {}⟩ front r) :
    (∀ l ∈ ls.head?, Gap source r.pos l.span.opens) ∧ ls.IsChain fun a b => Gap source a.span.closes b.span.opens := by
  induction h generalizing front with
  | last h _ => exact ⟨by simpa using h.gap hfront, .singleton _⟩
  | @cons r r' l ls h _ _ ih =>
    obtain ⟨cs, hcs⟩ := h.passes
    obtain ⟨hnext, hchain⟩ := ih (hfront.trans hcs)
    refine ⟨by simpa using h.gap hfront, ?_⟩
    cases ls with
    | nil => exact .singleton _
    | cons b ls => exact .cons_cons (h.closes ▸ hnext b rfl) hchain

theorem ends (h : Holds r ls) (hfront : Reader.Passes ⟨source.toList, {}⟩ front r) :
    ∃ ts p, ls = ts ++ [⟨.eof, ⟨p.line, p.col, p.col⟩⟩] ∧ p = Position.after {} source.toList
      ∧ ∀ l ∈ ts, l.token ≠ .eof := by
  induction h generalizing front with
  | last h heof =>
    cases h with
    | @eof gap p hgap _ =>
      have hpasses := hfront.trans hgap
      have htext : source.toList = front ++ gap := by simpa using hpasses.text
      exact ⟨[], p, rfl, htext ▸ hpasses.pos, List.forall_mem_nil _⟩
    | token _ _ _ hspells => exact absurd heof hspells.ne_eof
  | @cons r r' l ls h hl _ ih =>
    obtain ⟨cs, hcs⟩ := h.passes
    obtain ⟨ts, p, rfl, hp, hts⟩ := ih (hfront.trans hcs)
    exact ⟨l :: ts, p, rfl, hp, List.forall_mem_cons.mpr ⟨hl, hts⟩⟩

end Holds

end Lexer

theorem exact_of_lex {source : String} {ls : List Lexeme} (h : lex source = .ok ls) : Exact source ls := by
  have hholds := holds_of_lex h
  have hgaps := hholds.gaps (.refl _)
  exact ⟨hholds.stands (.refl _), hholds.ordered, hgaps.1, hgaps.2, hholds.ends (.refl _)⟩

def commented : String :=
  "a<<=/* é\n*/'\\x41' //"

def commentedTokens : List Lexeme :=
  [⟨.ident "a", ⟨1, 0, 1⟩⟩, ⟨.op (.update .shl), ⟨1, 1, 4⟩⟩, ⟨.int 65, ⟨2, 2, 8⟩⟩, ⟨.eof, ⟨2, 11, 11⟩⟩]

theorem exact_of_lex_commented : lex commented = .ok commentedTokens ∧ Exact commented commentedTokens := by
  have hlex : lex commented = .ok commentedTokens := by decide +kernel
  exact ⟨hlex, exact_of_lex hlex⟩

end Source
end Handheld
