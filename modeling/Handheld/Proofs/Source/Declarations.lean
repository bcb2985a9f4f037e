import Handheld.Proofs.Source.Emission
import Handheld.Proofs.Source.Lexing
import Handheld.Proofs.Source.Taking
import Handheld.Proofs.Table

/-!
What the survey of a program finds: the declarations of functions, and how each part of the top level changes what is
known.
-/
namespace Handheld.Source

variable {c c' c1 : Cursor} {l : Lexeme} {d : Declarator} {base : Base} {x : String}

structure Declaration where
  name : String
  function : Function
  first : Bool
  deriving DecidableEq, Repr

def Declarator.declaration (d : Declarator) (base : Base) (ps : List Param) (defined first : Bool) : Declaration where
  name := d.name
  function := { ret := d.ty base, params := ps.length, defined := defined }
  first := first

def declaredWith (base : Base) : Nat → Bool → Globals → Cursor → Option Declaration
  | 0, _, _, _ => none
  | fuel + 1, first, g, c =>
    match declarator g.macros c with
    | .error _ _ => none
    | .ok d c1 =>
      if d.dims.isEmpty && c1.head.token == .punct .lParen then
        match params g.macros c1 with
        | .error _ _ => none
        | .ok ps c2 => some (d.declaration base ps (c2.head.token == .punct .lBrace) first)
      else
        match globalRest g d (d.ty base) c1 with
        | .error _ _ => none
        | .ok g' c2 =>
          if c2.head.token == .punct .comma then declaredWith base fuel false g' c2.tail else none

def declarationsFrom : Nat → Globals → Cursor → List Declaration
  | 0, _, _ => []
  | fuel + 1, g, c =>
    match c.head.token with
    | .punct .hash =>
      match directive g c with
      | .ok g' c' => declarationsFrom fuel g' c'
      | .error _ _ => []
    | .punct .semicolon => declarationsFrom fuel g c.tail
    | .word w =>
      match w.base?, declaration g c with
      | some base, .ok g' c' =>
        (declaredWith base (c.tail.rest.length + 1) true g c.tail).toList ++ declarationsFrom fuel g' c'
      | _, _ => []
    | _ => []

def declarations (source : String) : List Declaration :=
  let c := Cursor.ofSource source
  declarationsFrom (c.rest.length + 1) {} c

open Read

inductive Declares (base : Base) : Bool → Globals → Cursor → Option Declaration → Globals → Cursor → Prop where
  | prototype {first : Bool} {g g' : Globals} {c c1 c2 : Cursor} {d : Declarator} {ps : List Param}
    (hd : declarator g.macros c = .ok d c1) (hdims : d.dims = []) (hopen : c1.head.token = .punct .lParen)
    (hps : params g.macros c1 = .ok ps c2) (hend : c2.head.token = .punct .semicolon)
    (hadd : g.addFunction d.name (d.declaration base ps false first).function d.span = .ok g')
    : Declares base first g c (some (d.declaration base ps false first)) g' c2.tail
  | definition {first : Bool} {g g' : Globals} {c c1 c2 : Cursor} {d : Declarator} {ps : List Param}
    {rest : List Lexeme}
    (hd : declarator g.macros c = .ok d c1) (hdims : d.dims = []) (hopen : c1.head.token = .punct .lParen)
    (hps : params g.macros c1 = .ok ps c2) (hbody : c2.head.token = .punct .lBrace)
    (hskip : skipBraces 1 c2.tail.rest = some rest)
    (hadd : g.addFunction d.name (d.declaration base ps true first).function d.span = .ok g')
    : Declares base first g c (some (d.declaration base ps true first)) g' { c2 with rest := rest }
  | last {first : Bool} {g g' : Globals} {c c1 c2 : Cursor} {d : Declarator}
    (hd : declarator g.macros c = .ok d c1) (hvar : ¬(d.dims = [] ∧ c1.head.token = .punct .lParen))
    (hglobal : globalRest g d (d.ty base) c1 = .ok g' c2) (hend : c2.head.token = .punct .semicolon)
    : Declares base first g c none g' c2.tail
  | more {first : Bool} {g g1 g' : Globals} {c c1 c2 c' : Cursor} {d : Declarator} {found : Option Declaration}
    (hd : declarator g.macros c = .ok d c1) (hvar : ¬(d.dims = [] ∧ c1.head.token = .punct .lParen))
    (hglobal : globalRest g d (d.ty base) c1 = .ok g1 c2) (hcomma : c2.head.token = .punct .comma)
    (hrest : Declares base false g1 c2.tail found g' c')
    : Declares base first g c found g' c'

inductive Surveys : Globals → Cursor → List Declaration → Globals → Cursor → Prop where
  | done {g : Globals} {c : Cursor} (h : c.head.token = .eof) : Surveys g c [] g c
  | directive {g g1 g' : Globals} {c c1 c' : Cursor} {ds : List Declaration} (h : c.head.token = .punct .hash)
    (hd : directive g c = .ok g1 c1) (hrest : Surveys g1 c1 ds g' c')
    : Surveys g c ds g' c'
  | semicolon {g g' : Globals} {c c' : Cursor} {ds : List Declaration} (h : c.head.token = .punct .semicolon)
    (hrest : Surveys g c.tail ds g' c')
    : Surveys g c ds g' c'
  | declaration {g g1 g' : Globals} {c c1 c' : Cursor} {ds : List Declaration} {w : Word} {base : Base}
    {found : Option Declaration} (h : c.head.token = .word w) (hbase : w.base? = some base)
    (hd : Declares base true g c.tail found g1 c1) (hrest : Surveys g1 c1 ds g' c')
    : Surveys g c (found.toList ++ ds) g' c'

namespace Read

variable {α β : Type}

theorem bind_of_ok {x : Read β} {f : β → Read α} {b : β} (h : x c = .ok b c1) : (x >>= f) c = f b c1 := by
  have hrun : (x >>= f) c = _ := EStateM.run_bind x f
  rw [hrun, EStateM.run, h]
  rfl

theorem bind_of_error {x : Read β} {f : β → Read α} {e : Error} (h : x c = .error e c1) :
    (x >>= f) c = .error e c1 := by
  have hrun : (x >>= f) c = _ := EStateM.run_bind x f
  rw [hrun, EStateM.run, h]

theorem bind_eq_ok_iff {x : Read β} {f : β → Read α} {a : α} :
    (x >>= f) c = .ok a c' ↔ ∃ b c1, x c = .ok b c1 ∧ f b c1 = .ok a c' := by
  constructor
  · intro h
    cases hx : x c with
    | ok b c1 => exact ⟨b, c1, rfl, (bind_of_ok hx).symm.trans h⟩
    | error e c1 => cases (bind_of_error hx).symm.trans h
  · rintro ⟨b, c1, hx, hf⟩
    exact (bind_of_ok hx).trans hf

theorem of_peek (h : peek c = .ok l c') : l = c.head ∧ c = c' := by
  obtain ⟨rest, final⟩ := c
  cases rest with
  | cons k ks =>
    cases h
    exact ⟨rfl, rfl⟩
  | nil =>
    cases final with
    | ok k =>
      cases h
      exact ⟨rfl, rfl⟩
    | error e => cases h

theorem halt_of_peek {e : Error} (h : peek c = .error e c') : c = c' ∧ c.halt = c := by
  obtain ⟨rest, final⟩ := c
  cases rest with
  | cons l ls => cases h
  | nil =>
    cases final with
    | ok l => cases h
    | error e' =>
      cases h
      exact ⟨rfl, rfl⟩

theorem of_peek_bind {f : Lexeme → Read α} {a : α} (h : (peek >>= f) c = .ok a c') : f c.head c = .ok a c' := by
  obtain ⟨k, c1, hpeek, hrest⟩ := bind_eq_ok_iff.mp h
  obtain ⟨rfl, rfl⟩ := of_peek hpeek
  exact hrest

theorem of_get_bind {f : Cursor → Read α} {a : α} (h : (get >>= f) c = .ok a c') : f c c = .ok a c' := by
  obtain ⟨_, _, ⟨⟩, hrest⟩ := bind_eq_ok_iff.mp h
  exact hrest

theorem of_next_bind {f : Lexeme → Read α} {a : α} (h : (next >>= f) c = .ok a c') : f c.head c.tail = .ok a c' := by
  obtain ⟨k, c1, hnext, hrest⟩ := bind_eq_ok_iff.mp h
  cases of_peek_bind hnext
  exact hrest

theorem of_eat {t : Token} {b : Bool} (h : eat t c = .ok b c') :
    b = true ∧ c.head.token = t ∧ c' = c.tail ∨ b = false ∧ c.head.token ≠ t ∧ c = c' := by
  have hrest := of_peek_bind h
  split at hrest
  next heq =>
    cases hrest
    exact .inl ⟨rfl, eq_of_beq heq, rfl⟩
  next hne =>
    cases hrest
    exact .inr ⟨rfl, by simpa using hne, rfl⟩

theorem of_expect_bind {t : Token} {f : Lexeme → Read α} {a : α} (h : (expect t >>= f) c = .ok a c') :
    c.head.token = t ∧ f c.head c.tail = .ok a c' := by
  obtain ⟨k, c1, hexpect, hrest⟩ := bind_eq_ok_iff.mp h
  replace hexpect := of_next_bind hexpect
  split at hexpect
  next heq =>
    cases hexpect
    exact ⟨eq_of_beq heq, hrest⟩
  next => cases hexpect

theorem of_ident {name : String} {span : Span} (h : ident c = .ok (name, span) c') :
    c.head.token = .ident name ∧ c' = c.tail := by
  have hrest := of_next_bind h
  generalize c.head.token = t at hrest ⊢
  cases t with
  | ident x =>
    cases hrest
    exact ⟨rfl, rfl⟩
  | _ => cases hrest

theorem of_base? {base : Option Base} (h : base? c = .ok base c') :
    (∃ w b, c.head.token = .word w ∧ w.base? = some b ∧ base = some b ∧ c' = c.tail) ∨ base = none := by
  have hrest := of_peek_bind h
  cases htoken : c.head.token with
  | word w =>
    simp only [htoken] at hrest
    cases hbase : w.base? with
    | some b =>
      simp only [hbase] at hrest
      replace hrest := of_next_bind hrest
      cases hrest
      exact .inl ⟨w, b, rfl, hbase, rfl, rfl⟩
    | none =>
      simp only [hbase] at hrest
      cases hrest
      exact .inr rfl
  | _ =>
    simp only [htoken] at hrest
    cases hrest
    exact .inr rfl

theorem of_skipBlock (h : skipBlock c = .ok () c') :
    c.head.token = .punct .lBrace ∧ ∃ rest, skipBraces 1 c.tail.rest = some rest ∧ c' = { c with rest := rest } := by
  obtain ⟨hbrace, hrest⟩ := of_expect_bind h
  refine ⟨hbrace, ?_⟩
  replace hrest := of_get_bind hrest
  generalize skipBraces 1 c.tail.rest = found at hrest ⊢
  cases found with
  | some rest =>
    cases hrest
    exact ⟨rest, rfl, rfl⟩
  | none =>
    obtain ⟨_, _, hset, hrest⟩ := bind_eq_ok_iff.mp hrest
    obtain ⟨_, _, hpeek, hrest⟩ := bind_eq_ok_iff.mp hrest
    cases hrest

theorem of_except {x : Except Error Globals} {g : Globals} (h : (match x with
    | .ok g => return g
    | .error e => throw e : Read Globals) c = .ok g c') : x = .ok g ∧ c = c' := by
  cases x with
  | ok g =>
    cases h
    exact ⟨rfl, rfl⟩
  | error e => cases h

end Read

section Inversion

variable {g g' : Globals} {fuel : Nat}

theorem declares_of_functionRest (first : Bool) (hd : declarator g.macros c = .ok d c1)
    (hdims : d.dims = []) (hopen : c1.head.token = .punct .lParen) (h : functionRest g d (d.ty base) c1 = .ok g' c')
    : ∃ ps c2 f, params g.macros c1 = .ok ps c2 ∧ g.addFunction d.name f d.span = .ok g'
        ∧ Declares base first g c (some (d.declaration base ps (c2.head.token == .punct .lBrace) first)) g' c' := by
  obtain ⟨ps, c2, hps, hrest⟩ := bind_eq_ok_iff.mp h
  replace hrest := of_peek_bind hrest
  cases hbody : c2.head.token == .punct .lBrace with
  | true =>
    simp only [hbody, if_true] at hrest
    obtain ⟨_, c3, hblock, hrest⟩ := bind_eq_ok_iff.mp hrest
    obtain ⟨hbrace, rest, hskip, rfl⟩ := of_skipBlock hblock
    obtain ⟨hadd, rfl⟩ := of_except hrest
    exact ⟨ps, c2, _, hps, hadd, hbody ▸ .definition hd hdims hopen hps hbrace hskip hadd⟩
  | false =>
    simp only [hbody, Bool.false_eq_true, if_false] at hrest
    obtain ⟨hend, hrest⟩ := of_expect_bind hrest
    obtain ⟨hadd, rfl⟩ := of_except hrest
    exact ⟨ps, c2, _, hps, hadd, hbody ▸ .prototype hd hdims hopen hps hend hadd⟩

theorem of_declarators (h : declarators base (fuel + 1) g c = .ok g' c') :
    ∃ d c1, declarator g.macros c = .ok d c1
      ∧ (d.dims = [] ∧ c1.head.token = .punct .lParen ∧ functionRest g d (d.ty base) c1 = .ok g' c'
        ∨ ¬(d.dims = [] ∧ c1.head.token = .punct .lParen) ∧ ∃ g1 c2, globalRest g d (d.ty base) c1 = .ok g1 c2
          ∧ (c2.head.token = .punct .comma ∧ declarators base fuel g1 c2.tail = .ok g' c'
            ∨ c2.head.token = .punct .semicolon ∧ g1 = g' ∧ c2.tail = c')) := by
  obtain ⟨d, c1, hd, hrest⟩ := bind_eq_ok_iff.mp h
  replace hrest := of_peek_bind hrest
  refine ⟨d, c1, hd, ?_⟩
  simp only [Bool.and_eq_true, List.isEmpty_iff, beq_iff_eq] at hrest
  split at hrest
  next hfunction => exact .inl ⟨hfunction.1, hfunction.2, hrest⟩
  next hvar =>
    obtain ⟨g1, c2, hglobal, hrest⟩ := bind_eq_ok_iff.mp hrest
    refine .inr ⟨hvar, g1, c2, hglobal, ?_⟩
    obtain ⟨more, c3, heat, hrest⟩ := bind_eq_ok_iff.mp hrest
    rcases of_eat heat with ⟨rfl, hcomma, rfl⟩ | ⟨rfl, hcomma, rfl⟩
    · exact .inl ⟨hcomma, hrest⟩
    · obtain ⟨hend, hrest⟩ := of_expect_bind hrest
      cases hrest
      exact .inr ⟨hend, rfl, rfl⟩

theorem declares_of_declarators (first : Bool) (h : declarators base fuel g c = .ok g' c') :
    Declares base first g c (declaredWith base fuel first g c) g' c' := by
  induction fuel generalizing first g c with
  | zero => cases h
  | succ fuel ih =>
    obtain ⟨d, c1, hd, ⟨hdims, hopen, hrest⟩ | ⟨hvar, g1, c2, hglobal, hrest⟩⟩ := of_declarators h
    · obtain ⟨ps, c2, -, hps, -, hdeclares⟩ := declares_of_functionRest first hd hdims hopen hrest
      simpa [declaredWith, hd, hdims, hopen, hps] using hdeclares
    · have hnot : (d.dims.isEmpty && c1.head.token == .punct .lParen) = false := by simpa using hvar
      rcases hrest with ⟨hcomma, hrest⟩ | ⟨hend, rfl, rfl⟩
      · simp only [declaredWith, hd, hnot, hglobal, hcomma, beq_self_eq_true, if_true, Bool.false_eq_true, if_false]
        exact .more hd hvar hglobal hcomma (ih false hrest)
      · simp only [declaredWith, hd, hnot, hglobal, hend, Bool.false_eq_true, if_false]
        exact .last hd hvar hglobal hend

theorem of_declaration {w : Word} (hw : c.head.token = .word w) (h : declaration g c = .ok g' c') :
    ∃ base, w.base? = some base ∧ declarators base (c.tail.rest.length + 1) g c.tail = .ok g' c' := by
  obtain ⟨base, c1, hbase, hrest⟩ := bind_eq_ok_iff.mp h
  rcases of_base? hbase with ⟨w', b, hw', hb, rfl, rfl⟩ | rfl
  · cases hw.symm.trans hw'
    exact ⟨b, hb, hrest⟩
  · obtain ⟨_, _, _, hrest⟩ := bind_eq_ok_iff.mp hrest
    cases hrest

theorem of_topLevel (h : topLevel (fuel + 1) g c = .ok g' c') :
    c.head.token = .eof ∧ g = g' ∧ c = c' ∨ c.head.token = .punct .semicolon ∧ topLevel fuel g c.tail = .ok g' c'
      ∨ ∃ g1 c1, topLevel fuel g1 c1 = .ok g' c' ∧ (c.head.token = .punct .hash ∧ directive g c = .ok g1 c1
        ∨ ∃ w, c.head.token = .word w ∧ declaration g c = .ok g1 c1) := by
  have hrest := of_peek_bind h
  generalize c.head.token = t at hrest ⊢
  cases t with
  | eof =>
    cases hrest
    exact .inl ⟨rfl, rfl, rfl⟩
  | word w =>
    simp only at hrest
    split at hrest
    next =>
      obtain ⟨g1, c1, hd, hrest⟩ := bind_eq_ok_iff.mp hrest
      exact .inr (.inr ⟨g1, c1, hrest, .inr ⟨w, rfl, hd⟩⟩)
    next => cases hrest
  | punct p =>
    cases p with
    | hash =>
      obtain ⟨g1, c1, hd, hrest⟩ := bind_eq_ok_iff.mp hrest
      exact .inr (.inr ⟨g1, c1, hrest, .inl ⟨rfl, hd⟩⟩)
    | semicolon =>
      replace hrest := of_next_bind hrest
      exact .inr (.inl ⟨rfl, hrest⟩)
    | _ => cases hrest
  | _ => cases hrest

theorem surveys_of_topLevel (h : topLevel fuel g c = .ok g' c') : Surveys g c (declarationsFrom fuel g c) g' c' := by
  induction fuel generalizing g c with
  | zero => cases h
  | succ fuel ih =>
    unfold declarationsFrom
    rcases of_topLevel h with ⟨heof, rfl, rfl⟩ | ⟨hsemicolon, hrest⟩ | ⟨g1, c1, hrest, ⟨hhash, hd⟩ | ⟨w, hword, hd⟩⟩
    · rw [heof]
      exact .done heof
    · rw [hsemicolon]
      exact .semicolon hsemicolon (ih hrest)
    · rw [hhash, hd]
      exact .directive hhash hd (ih hrest)
    · obtain ⟨base, hbase, hdeclarators⟩ := of_declaration hword hd
      simp only [hword, hbase, hd]
      exact .declaration hword hbase (declares_of_declarators true hdeclarators) (ih hrest)

theorem topLevel_of_survey (h : survey c = .ok g) : ∃ c', topLevel (c.rest.length + 1) {} c = .ok g c' := by
  unfold survey at h
  split at h
  next => cases h
  next g' c' hg' =>
    refine ⟨c', ?_⟩
    split at h
    next =>
      split at h
      next => cases h
      next =>
        split at h
        next => cases h
        next =>
          cases h
          exact hg'
    next => cases h

theorem surveys_of_survey (h : survey c = .ok g) :
    ∃ c', Surveys {} c (declarationsFrom (c.rest.length + 1) {} c) g c' := by
  obtain ⟨c', htop⟩ := topLevel_of_survey h
  exact ⟨c', surveys_of_topLevel htop⟩

end Inversion

def Cursor.behindLine (c : Cursor) (line : Nat) : Cursor :=
  { c with rest := c.rest.dropWhile (·.span.line == line) }

theorem Cursor.past_behindLine (c : Cursor) (line : Nat) :
    c.Past (c.rest.takeWhile (·.span.line == line)) (c.behindLine line) :=
  ⟨List.takeWhile_append_dropWhile.symm, rfl⟩

theorem Read.of_restOfLine {line : Nat} {ls : List Lexeme} (h : restOfLine line c = .ok ls c') :
    ls = c.rest.takeWhile (·.span.line == line) ∧ c' = c.behindLine line := by
  have hrest := of_get_bind h
  obtain ⟨_, _, hset, hrest⟩ := bind_eq_ok_iff.mp hrest
  cases hset
  replace hrest := of_peek_bind hrest
  cases hrest
  refine ⟨rfl, ?_⟩
  rw [Cursor.behindLine, Text.drop_length_takeWhile]

section Steps

variable {g g' : Globals}

def valueAt (macros : Macros) (line : Nat) (c : Cursor) : Option Macro :=
  if c.head.span.line != line || c.head.token == .eof then some (.int 1)
  else
    match string? macros c with
    | .ok (some bytes) _ => some (.text bytes)
    | .ok none c' =>
      match constant macros c' with
      | .ok n _ => some (.int n)
      | .error _ _ => none
    | .error _ _ => none

def defined? (macros : Macros) (c : Cursor) : Option (String × Macro) :=
  if c.tail.head.token == .ident "define" && c.tail.head.span.line == c.head.span.line then
    match c.tail.tail.head.token with
    | .ident name => (valueAt macros c.head.span.line c.tail.tail.tail).map (name, ·)
    | _ => none
  else none

theorem of_define {line : Nat} {name : String} {value : Read Macro}
    (hvalue : Takes g.macros g.macros True (Each Token.isOperand) id value value) (h : (value >>= fun v => do
      match ← restOfLine line with
      | extra :: _ => throw (extra.unexpected "end of line")
      | [] => return { g with macros := Table.insert g.macros name v } : Read Globals) c1 = .ok g' c')
    : ∃ v c2 ts, value c1 = .ok v c2 ∧ g' = { g with macros := Table.insert g.macros name v } ∧ c1.Past ts c'
        ∧ Each Token.isOperand ts ∧ c'.rest.takeWhile (·.span.line == line) = [] := by
  obtain ⟨v, c2, hv, hrest⟩ := bind_eq_ok_iff.mp h
  obtain ⟨ls, c3, hline, hrest⟩ := bind_eq_ok_iff.mp hrest
  obtain ⟨rfl, rfl⟩ := of_restOfLine hline
  obtain ⟨ts, hpast, hts, -⟩ := (hvalue c1).ok v c2 hv
  cases hls : c2.rest.takeWhile (·.span.line == line) with
  | nil =>
    have hbehind : c2.behindLine line = c2 := by
      rw [Cursor.behindLine, ← Text.drop_length_takeWhile, hls]
      rfl
    rw [hls, hbehind] at hrest
    cases hrest
    exact ⟨v, _, ts, hv, rfl, hpast, hts, hls⟩
  | cons extra ls =>
    rw [hls] at hrest
    cases hrest

theorem of_directive (h : Source.directive g c = .ok g' c') :
    g' = g ∧ c' = c.tail.behindLine c.head.span.line ∧ defined? g.macros c = none
      ∨ ∃ name v ts, g' = { g with macros := Table.insert g.macros name v } ∧ defined? g.macros c = some (name, v)
        ∧ c.tail.head.token = .ident "define" ∧ c.tail.head.span.line = c.head.span.line
        ∧ c.tail.tail.head.token = .ident name ∧ c.tail.tail.head.span.line = c.head.span.line
        ∧ c.tail.tail.tail.Past ts c' ∧ Each Token.isOperand ts
        ∧ c'.rest.takeWhile (·.span.line == c.head.span.line) = [] := by
  obtain ⟨-, hrest⟩ := of_expect_bind h
  replace hrest := of_peek_bind hrest
  split at hrest
  next hdefine =>
    obtain ⟨hword, hline⟩ := Bool.and_eq_true_iff.mp hdefine
    replace hrest := of_next_bind hrest
    replace hrest := of_peek_bind hrest
    obtain ⟨⟨name, span⟩, c1, hident, hrest⟩ := bind_eq_ok_iff.mp hrest
    obtain ⟨hname, rfl⟩ := of_ident hident
    dsimp only at hrest
    split at hrest
    next =>
      obtain ⟨_, _, hthrow, -⟩ := bind_eq_ok_iff.mp hrest
      cases hthrow
    next hsame =>
      replace hrest := of_peek_bind hrest
      have hfound : ∃ v ts, valueAt g.macros c.head.span.line c.tail.tail.tail = some v
          ∧ g' = { g with macros := Table.insert g.macros name v } ∧ c.tail.tail.tail.Past ts c'
          ∧ Each Token.isOperand ts ∧ c'.rest.takeWhile (·.span.line == c.head.span.line) = [] := by
        unfold valueAt
        split at hrest
        next habsent =>
          obtain ⟨v, _, ts, hv, hfound⟩ := of_define (fun _ => .self Joins.nil) hrest
          cases hv
          rw [if_pos habsent]
          exact ⟨_, ts, rfl, hfound⟩
        next hpresent =>
          obtain ⟨text, c2, hstring, hrest⟩ := bind_eq_ok_iff.mp hrest
          obtain ⟨ts, hpast, hts, -⟩ := (takes_string? g.macros _).ok text c2 hstring
          rw [if_neg hpresent, hstring]
          cases text with
          | some bytes =>
            obtain ⟨v, _, us, hv, heq, hpast', hus, hend⟩ := of_define (fun _ => .self Joins.nil) hrest
            cases hv
            exact ⟨_, ts ++ us, rfl, heq, hpast.trans hpast', Joins.append hts hus, hend⟩
          | none =>
            rw [← bind_pure_comp] at hrest
            obtain ⟨v, _, us, hv, heq, hpast', hus, hend⟩ := of_define (fun c =>
              .same ((takes_constant c).again.mono fun _ h => h.operands) fun _ c => .self Joins.nil) hrest
            obtain ⟨n, _, hn, hv⟩ := bind_eq_ok_iff.mp hv
            cases hv
            simp only [hn]
            exact ⟨_, ts ++ us, rfl, heq, hpast.trans hpast', Joins.append hts hus, hend⟩
      obtain ⟨v, ts, hvalue, heq, hpast, hts, hend⟩ := hfound
      have hdefined : defined? g.macros c = some (name, v) := by
        rw [defined?, if_pos hdefine]
        simp only [hname, hvalue]
        rfl
      exact .inr ⟨name, v, ts, heq, hdefined, eq_of_beq hword, eq_of_beq hline, hname, by simpa using hsame, hpast, hts,
        hend⟩
  next hother =>
    obtain ⟨_, _, hline, hrest⟩ := bind_eq_ok_iff.mp hrest
    obtain ⟨-, rfl⟩ := of_restOfLine hline
    cases hrest
    exact .inl ⟨rfl, rfl, if_neg hother⟩

def initializerAt (macros : Macros) (c : Cursor) : Option Init :=
  if c.head.token == .op .assign then
    match initializer macros (2 * (c.tail.rest.length + 2)) c.tail with
    | .ok init _ => some init
    | .error _ _ => none
  else none

theorem initializerAt_of_assign {macros : Macros} {init : Init} (hassign : c.head.token = .op .assign)
    (hinit : initializer macros (2 * (c.tail.rest.length + 2)) c.tail = .ok init c')
    : initializerAt macros c = some init := by
  rw [initializerAt, if_pos (by simp [hassign]), hinit]

theorem declare_of_added {ty : Ty} {init : Option Init} (h : (match (do
    let dims ← d.extents ty (init.bind (·.shape))
    let (v, g) ← g.declare d.name ty dims d.span
    match init with
    | some init => g.setContents v init d.span
    | none => return g : Except Error Globals) with
    | .ok g => return g
    | .error e => throw e : Read Globals) c = .ok g' c')
    : ∃ dims v g1, d.extents ty (init.bind (·.shape)) = .ok dims ∧ g.declare d.name ty dims d.span = .ok (v, g1)
      ∧ (init = none ∧ g' = g1 ∨ ∃ i, init = some i ∧ g1.setContents v i d.span = .ok g') := by
  obtain ⟨h, -⟩ := of_except h
  simp only [Except.bind_eq_ok_iff, Prod.exists] at h
  obtain ⟨dims, hdims, v, g1, hdeclare, h⟩ := h
  refine ⟨dims, v, g1, hdims, hdeclare, ?_⟩
  cases init with
  | none =>
    cases h
    exact .inl ⟨rfl, rfl⟩
  | some init => exact .inr ⟨init, rfl, h⟩

theorem declare_of_globalRest {ty : Ty} (h : globalRest g d ty c = .ok g' c') :
    ∃ dims v g1, d.extents ty ((initializerAt g.macros c).bind (·.shape)) = .ok dims
      ∧ g.declare d.name ty dims d.span = .ok (v, g1)
      ∧ (initializerAt g.macros c = none ∧ g' = g1
        ∨ ∃ init, initializerAt g.macros c = some init ∧ g1.setContents v init d.span = .ok g') := by
  unfold globalRest at h
  dsimp only at h
  split at h
  next =>
    obtain ⟨_, _, hthrow, -⟩ := bind_eq_ok_iff.mp h
    cases hthrow
  next =>
    obtain ⟨found, c1, heat, h⟩ := bind_eq_ok_iff.mp h
    rcases of_eat heat with ⟨rfl, hassign, rfl⟩ | ⟨rfl, hassign, rfl⟩
    · replace h := of_get_bind h
      obtain ⟨init, c2, hmap, h⟩ := bind_eq_ok_iff.mp h
      rw [map_eq_pure_bind] at hmap
      obtain ⟨i, c3, hinit, hpure⟩ := bind_eq_ok_iff.mp hmap
      cases hpure
      rw [initializerAt_of_assign hassign hinit]
      exact declare_of_added h
    · rw [initializerAt, if_neg (by simpa using hassign)]
      exact declare_of_added h

theorem exists_append_of_skipBraces {depth : Nat} {ls rest : List Lexeme} (h : skipBraces depth ls = some rest) :
    ∃ ts, ls = ts ++ rest := by
  fun_induction skipBraces depth ls with
  | case1 =>
    cases h
    exact ⟨[], rfl⟩
  | case2 => cases h
  | case3 _ l _ _ ih | case4 _ l _ _ _ ih | case5 _ l _ _ _ ih =>
    obtain ⟨ts, rfl⟩ := ih h
    exact ⟨l :: ts, rfl⟩

theorem past_header {macros : Macros} {ps : List Param} (hd : declarator macros c = .ok d c1)
    (hps : params macros c1 = .ok ps c')
    : ∃ ts, c.Past ts c' ∧ Each Token.isPlain ts := by
  obtain ⟨ts, hpast, hts⟩ := takes_declarator.past hd
  obtain ⟨us, hpast', hus⟩ := takes_params.past hps
  exact ⟨ts ++ us, hpast.trans hpast', Joins.append hts hus⟩

theorem past_of_directive (h : directive g c = .ok g' c') : ∃ ts, c.Past ts c' := by
  rcases of_directive h with ⟨-, rfl, -⟩ | ⟨_, _, ts, -, -, -, -, -, -, hpast, -, -⟩
  · exact ⟨_, c.past_tail.trans (c.tail.past_behindLine _)⟩
  · exact ⟨_, (c.past_tail.trans (c.tail.past_tail.trans c.tail.tail.past_tail)).trans hpast⟩

theorem Declares.past {first : Bool} {found : Option Declaration} (h : Declares base first g c found g' c')
    : ∃ ts, c.Past ts c' := by
  induction h with
  | prototype hd _ _ hps =>
    obtain ⟨ts, hpast, -⟩ := past_header hd hps
    exact ⟨_, hpast.trans (Cursor.past_tail _)⟩
  | @definition _ _ _ _ _ c2 _ _ rest hd _ _ hps hbody hskip =>
    obtain ⟨ts, hpast, -⟩ := past_header hd hps
    obtain ⟨vs, hrest⟩ := exists_append_of_skipBraces hskip
    have hbehind : c2.tail.Past vs { c2 with rest := rest } := ⟨hrest, rfl⟩
    exact ⟨_, hpast.trans (c2.past_tail.trans hbehind)⟩
  | last hd _ hglobal =>
    obtain ⟨ts, hpast, -⟩ := takes_declarator.past hd
    obtain ⟨us, hpast', -⟩ := (takesAt_globalRest _ _ _ _).ok _ _ hglobal
    exact ⟨_, (hpast.trans hpast').trans (Cursor.past_tail _)⟩
  | more hd _ hglobal _ _ ih =>
    obtain ⟨ts, hpast, -⟩ := takes_declarator.past hd
    obtain ⟨us, hpast', -⟩ := (takesAt_globalRest _ _ _ _).ok _ _ hglobal
    obtain ⟨vs, hpast''⟩ := ih
    exact ⟨_, ((hpast.trans hpast').trans (Cursor.past_tail _)).trans hpast''⟩

end Steps

section Globals

variable {g g' : Globals} {name : String} {v : Var} {span : Span}

theorem Globals.declare_eq_ok_iff {ty : Ty} {dims : List Nat} :
    g.declare name ty dims span = .ok (v, g')
      ↔ g.vars.lookup name = none ∧ g.functions.lookup name = none
        ∧ ((Memory.dataStart.toNat + g.size) % 0x100000000 + v.size) % 0x100000000 ≤ Memory.heapStart.toNat
        ∧ v =
          { offset := (Memory.dataStart.toNat + g.size) % 0x100000000 % 0x10000, ty := ty, dims := dims, onFrame := false }
        ∧ g' = { g with vars := (name, v) :: g.vars, size := (g.size + v.size) % 0x100000000 } := by
  simp only [declare, ← Table.contains_eq_false_iff]
  constructor
  · intro h
    split at h
    next => cases h
    next hnew =>
      split at h
      next => cases h
      next hfits =>
        cases h
        simp only [Bool.or_eq_true, not_or, Bool.not_eq_true] at hnew
        exact ⟨hnew.1, hnew.2, Nat.not_lt.mp hfits, rfl, by rw [Table.insert_of_new hnew.1]⟩
  · rintro ⟨hvars, hfunctions, hfits, rfl, rfl⟩
    rw [if_neg (by simp [hvars, hfunctions]), if_neg (Nat.not_lt.mpr hfits), Table.insert_of_new hvars]

theorem Globals.setContents_eq_ok_iff {init : Init} :
    g.setContents v init span = .ok g' ↔ ∃ c, Contents.ofInit v init = .ok c
      ∧ { g with
          inits := if (c.bytes.reverse.dropWhile (· == 0)).reverse.isEmpty then g.inits
            else g.inits ++ [(v.offset, (c.bytes.reverse.dropWhile (· == 0)).reverse)]
          strings := g.strings ++ c.strings.map fun p => ((v.offset + p.1) % 0x10000, p.2) } = g' := by
  unfold setContents
  split
  next h => simp [h]
  next h => simp [h]
  next h => simp [h]

theorem Globals.addFunction_eq_ok {f : Function} (h : g.addFunction name f span = .ok g') :
    ∃ f', g' = { g with functions := Table.insert g.functions name f' }
      ∧ (g.functions.lookup name = none ∧ f' = f
        ∨ ∃ prior, g.functions.lookup name = some prior ∧ (prior.defined && f.defined) = false
          ∧ f' = { prior with defined := prior.defined || f.defined }) := by
  unfold Globals.addFunction at h
  split at h
  next => cases h
  next =>
    split at h
    next hnone =>
      cases h
      exact ⟨f, rfl, .inl ⟨hnone, rfl⟩⟩
    next prior hprior =>
      split at h
      next => cases h
      next =>
        split at h
        next => cases h
        next honce =>
          cases h
          exact ⟨_, rfl, .inr ⟨prior, hprior, Bool.not_eq_true _ ▸ honce, rfl⟩⟩

end Globals

section Stable

variable {N : String → Prop} {P : Globals → Prop} {g g' : Globals}

def Cursor.Named (N : String → Prop) (c : Cursor) : Prop :=
  ∀ l ∈ c.eof :: c.rest, ∀ x, l.token = .ident x → N x

structure Globals.Kept (N : String → Prop) (P : Globals → Prop) : Prop where
  function {g g' : Globals} {name : String} {f : Function} {span : Span} :
    N name → P g → g.addFunction name f span = .ok g' → P g'
  var {g g' : Globals} {name : String} {ty : Ty} {dims : List Nat} {span : Span} {v : Var} :
    P g → g.declare name ty dims span = .ok (v, g') → P g'
  contents {g g1 g' : Globals} {name : String} {ty : Ty} {dims : List Nat} {span : Span} {v : Var} {init : Init} :
    P g → g.declare name ty dims span = .ok (v, g1) → g1.setContents v init span = .ok g' → P g'

structure Globals.Stable (N : String → Prop) (P : Globals → Prop) : Prop extends Kept N P where
  macros {g : Globals} (macros : Macros) : P g → P { g with macros := macros }

theorem Cursor.Named.past {ts : List Lexeme} (h : c.Named N) (hpast : c.Past ts c') : c'.Named N := by
  intro l hl
  have heof : c'.eof = c.eof := by rw [eof, eof, hpast.final]
  apply h l
  rw [hpast.rest]
  rw [heof] at hl
  exact (List.sublist_append_right ts c'.rest).cons_cons c.eof |>.mem hl

theorem Cursor.Named.head (h : c.Named N) (hx : c.head.token = .ident x) : N x := by
  refine h c.head ?_ x hx
  rw [Cursor.head]
  cases c.rest with
  | nil => exact List.mem_cons_self
  | cons l ls => exact List.mem_cons_of_mem _ List.mem_cons_self

theorem Cursor.Named.tail (h : c.Named N) : c.tail.Named N :=
  h.past c.past_tail

theorem Cursor.Named.declarator {macros : Macros} (h : c.Named N) (hd : declarator macros c = .ok d c') : N d.name := by
  obtain ⟨pointer, c1, hstars, hrest⟩ := bind_eq_ok_iff.mp hd
  obtain ⟨⟨name, span⟩, c2, hident, hrest⟩ := bind_eq_ok_iff.mp hrest
  obtain ⟨ts, hpast, -⟩ := takes_stars.past (m := macros) hstars
  obtain ⟨hname, rfl⟩ := of_ident hident
  obtain ⟨_, _, hget, hrest⟩ := bind_eq_ok_iff.mp hrest
  obtain ⟨dims, c3, -, hrest⟩ := bind_eq_ok_iff.mp hrest
  cases hrest
  exact (h.past hpast).head hname

theorem Globals.Kept.globalRest {ty : Ty} (h : Globals.Kept N P) (hg : P g) (hglobal : globalRest g d ty c = .ok g' c')
    : P g' := by
  obtain ⟨dims, v, g1, -, hdeclare, ⟨-, rfl⟩ | ⟨init, -, hset⟩⟩ := declare_of_globalRest hglobal
  · exact h.var hg hdeclare
  · exact h.contents hg hdeclare hset

theorem Declares.kept {first : Bool} {found : Option Declaration} (hP : Globals.Kept N P)
    (h : Declares base first g c found g' c') (hnamed : c.Named N) (hg : P g)
    : P g' := by
  induction h with
  | prototype hd _ _ _ _ hadd | definition hd _ _ _ _ _ hadd => exact hP.function (hnamed.declarator hd) hg hadd
  | last _ _ hglobal => exact hP.globalRest hg hglobal
  | more hd _ hglobal _ _ ih =>
    obtain ⟨ts, hpast, -⟩ := takes_declarator.past hd
    obtain ⟨us, hpast', -⟩ := (takesAt_globalRest _ _ _ _).ok _ _ hglobal
    exact ih (hnamed.past (hpast.trans hpast')).tail (hP.globalRest hg hglobal)

theorem Surveys.stable {ds : List Declaration} (hP : Globals.Stable N P) (h : Surveys g c ds g' c') (hnamed : c.Named N)
    (hg : P g)
    : P g' := by
  induction h with
  | done => exact hg
  | directive _ hd _ ih =>
    obtain ⟨ts, hpast⟩ := past_of_directive hd
    refine ih (hnamed.past hpast) ?_
    rcases of_directive hd with ⟨rfl, -⟩ | ⟨_, _, _, rfl, -⟩
    · exact hg
    · exact hP.macros _ hg
  | semicolon _ _ ih => exact ih hnamed.tail hg
  | declaration _ _ hd _ ih =>
    obtain ⟨ts, hpast⟩ := hd.past
    exact ih (hnamed.tail.past hpast) (hd.kept hP.toKept hnamed.tail hg)

theorem stable_of_survey (hP : Globals.Stable N P) (hstart : P {}) (hnamed : c.Named N) (h : survey c = .ok g) :
    P g := by
  obtain ⟨c', hsurveys⟩ := surveys_of_survey h
  exact hsurveys.stable hP hnamed hstart

end Stable

namespace Lexer

theorem tokens_induction {Q : Lexeme → Prop} (hQ : ∀ r l r', next r = .ok (l, r') → Q l) (r : Reader) :
    (∀ l ∈ (tokens r).1, Q l) ∧ ∀ l, (tokens r).2 = .ok l → l.token = .eof := by
  fun_induction tokens r with
  | case1 r e h => simp
  | case2 r l r' h hl => simpa using hl
  | case3 r l r' h hl ls final heq ih =>
    rw [heq] at ih
    exact ⟨List.forall_mem_cons.mpr ⟨hQ r l r' h, ih.1⟩, ih.2⟩

end Lexer

theorem closed_ofSource (source : String) : (Cursor.ofSource source).Closed := by
  have heof := (Lexer.tokens_induction (Q := fun _ => True) (fun _ _ _ _ => trivial) { rest := source.toList }).2
  unfold Cursor.Closed Cursor.eof
  split
  next l hfinal => exact heof l hfinal
  next => rfl

theorem named_ofSource (source : String) : (Cursor.ofSource source).Named fun x => Lexer.isIdent x.toList := by
  have hidents :=
    (Lexer.tokens_induction (fun _ _ _ h x => Lexer.isIdent_of_next (x := x) h) { rest := source.toList }).1
  intro l hl x hx
  rcases List.mem_cons.mp hl with rfl | hl
  · have hclosed := closed_ofSource source
    rw [hclosed] at hx
    cases hx
  · exact hidents l hl x hx

end Handheld.Source
