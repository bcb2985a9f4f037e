import Handheld.Proofs.Source.Flow
import Handheld.Proofs.Source.Spelling

/-!
How statements over numbers are spelled, and that they are read so. An `else` belongs to the nearest `if` that has none
yet.
-/
namespace Handheld.Source

def SpellsConstant (macros : Macros) (ts : List Lexeme) (n : Int32) : Prop :=
  ∀ (l : Lexeme) rest final, l.token = .punct .colon →
    constant macros ⟨ts ++ l :: rest, final⟩ = .ok n ⟨l :: rest, final⟩

theorem spellsConstant_int {macros : Macros} {l : Lexeme} {n : Int32} (hl : l.token = .int n) :
    SpellsConstant macros [l] n := by
  intro r rest final hr
  have hunary (fuel : Nat) : Constant.unary macros (fuel + 1) ⟨l :: r :: rest, final⟩ = .ok n ⟨r :: rest, final⟩ := by
    have hnext : Read.next ⟨l :: r :: rest, final⟩ = .ok l ⟨r :: rest, final⟩ := rfl
    change (Read.next >>= _) _ = _
    dsimp only [bind, EStateM.bind]
    rw [hnext]
    dsimp only
    rw [hl]
    rfl
  have hrest (fuel : Nat) : Constant.binaryRest macros (fuel + 1) 1 n ⟨r :: rest, final⟩ = .ok n ⟨r :: rest, final⟩ := by
    have hpeek : Read.peek ⟨r :: rest, final⟩ = .ok r ⟨r :: rest, final⟩ := rfl
    rw [Constant.binaryRest]
    simp only [bind, EStateM.bind, hpeek, hr]
    rfl
  have hbinary (fuel : Nat) : Constant.binary macros (fuel + 2) 1 ⟨l :: r :: rest, final⟩ = .ok n ⟨r :: rest, final⟩ := by
    rw [Constant.binary]
    simp only [bind, EStateM.bind, hunary, hrest]
  have heat : Read.eat (.punct .question) ⟨r :: rest, final⟩ = .ok false ⟨r :: rest, final⟩ := by
    simp [Grammar.Read.eat_cons, hr]
  show Constant.ternary macros (4 * ((r :: rest).length + 1 + 2)) ⟨l :: r :: rest, final⟩ = _
  rw [show 4 * ((r :: rest).length + 1 + 2) = 4 * (r :: rest).length + 9 + 3 by omega, Constant.ternary]
  simp only [bind, EStateM.bind, hbinary, heat]
  rfl

inductive SpellsVariable (macros : Macros) : List Lexeme → Declared → Prop where
  | plain {l : Lexeme} {x : String} (hl : l.token = .ident x) :
    SpellsVariable macros [l] (.plain ⟨x, l.span, 0, []⟩)
  | scalar {l k : Lexeme} {x : String} {ts : List Lexeme} {e : Expr} (hl : l.token = .ident x)
    (hk : k.token = .op .assign) (h : Spells macros .assignment ts e) :
    SpellsVariable macros (l :: k :: ts) (.scalar ⟨x, l.span, 0, []⟩ e)

inductive SpellsVariables (macros : Macros) : List Lexeme → List Declared → Prop where
  | last {ts : List Lexeme} {r : Lexeme} {d : Declared} (h : SpellsVariable macros ts d)
    (hr : r.token = .punct .semicolon) : SpellsVariables macros (ts ++ [r]) [d]
  | cons {ts ts' : List Lexeme} {r : Lexeme} {d : Declared} {ds : List Declared} (h : SpellsVariable macros ts d)
    (hr : r.token = .punct .comma) (h' : SpellsVariables macros ts' ds) :
    SpellsVariables macros (ts ++ r :: ts') (d :: ds)

inductive SpellsSimple (macros : Macros) : List Lexeme → Stmt → Prop where
  | empty {r : Lexeme} (hr : r.token = .punct .semicolon) : SpellsSimple macros [r] .empty
  | expr {ts : List Lexeme} {r : Lexeme} {e : Expr} (h : Spells macros .comma ts e)
    (hr : r.token = .punct .semicolon) : SpellsSimple macros (ts ++ [r]) (.expr e)
  | declare {l : Lexeme} {w : Word} {base : Base} {ts : List Lexeme} {ds : List Declared} (hl : l.token = .word w)
    (hw : w.base? = some base) (h : SpellsVariables macros ts ds) :
    SpellsSimple macros (l :: ts) (.declare base ds)

inductive SpellsCondition (macros : Macros) : List Lexeme → Span → Expr → Prop where
  | parens {l r : Lexeme} {ts : List Lexeme} {e : Expr} (hl : l.token = .punct .lParen)
    (h : Spells macros .comma ts e) (hr : r.token = .punct .rParen) :
    SpellsCondition macros (l :: (ts ++ [r])) l.span e

inductive SpellsPart (macros : Macros) (t : Token) : List Lexeme → Option Expr → Prop where
  | missing {r : Lexeme} (hr : r.token = t) : SpellsPart macros t [r] none
  | given {ts : List Lexeme} {r : Lexeme} {e : Expr} (h : Spells macros .comma ts e) (hr : r.token = t) :
    SpellsPart macros t (ts ++ [r]) (some e)

def Stmt.isOpen : Stmt → Bool
  | .ifThen _ _ _ => true
  | .ifElse _ _ _ s | .whileLoop _ _ s | .forLoop _ _ _ _ s | .switch _ _ _ s => s.isOpen
  | _ => false

mutual

inductive SpellsStmt (macros : Macros) : List Lexeme → Stmt → Prop where
  | simple {ts : List Lexeme} {s : Stmt} (h : SpellsSimple macros ts s) : SpellsStmt macros ts s
  | block {l : Lexeme} {ts : List Lexeme} {ss : List Stmt} (hl : l.token = .punct .lBrace)
    (h : SpellsBlock macros ts ss) : SpellsStmt macros (l :: ts) (.block ss)
  | ifThen {l : Lexeme} {cs ts : List Lexeme} {opened : Span} {e : Expr} {yes : Stmt}
    (hl : l.token = .word .ifWord) (hcond : SpellsCondition macros cs opened e) (h : SpellsStmt macros ts yes) :
    SpellsStmt macros (l :: (cs ++ ts)) (.ifThen opened e yes)
  | ifElse {l k : Lexeme} {cs ts ts' : List Lexeme} {opened : Span} {e : Expr} {yes no : Stmt}
    (hl : l.token = .word .ifWord) (hcond : SpellsCondition macros cs opened e) (h : SpellsStmt macros ts yes)
    (hclosed : yes.isOpen = false) (hk : k.token = .word .elseWord) (h' : SpellsStmt macros ts' no) :
    SpellsStmt macros (l :: (cs ++ (ts ++ k :: ts'))) (.ifElse opened e yes no)
  | whileLoop {l : Lexeme} {cs ts : List Lexeme} {opened : Span} {e : Expr} {body : Stmt}
    (hl : l.token = .word .whileWord) (hcond : SpellsCondition macros cs opened e) (h : SpellsStmt macros ts body) :
    SpellsStmt macros (l :: (cs ++ ts)) (.whileLoop opened e body)
  | doLoop {l k r : Lexeme} {cs ts : List Lexeme} {opened : Span} {e : Expr} {body : Stmt}
    (hl : l.token = .word .doWord) (h : SpellsStmt macros ts body) (hk : k.token = .word .whileWord)
    (hcond : SpellsCondition macros cs opened e) (hr : r.token = .punct .semicolon) :
    SpellsStmt macros (l :: (ts ++ k :: (cs ++ [r]))) (.doLoop body opened e)
  | forLoop {l p : Lexeme} {is cs ss ts : List Lexeme} {init : Stmt} {cond step : Option Expr} {body : Stmt}
    (hl : l.token = .word .forWord) (hp : p.token = .punct .lParen) (hinit : SpellsSimple macros is init)
    (hcond : SpellsPart macros (.punct .semicolon) cs cond) (hstep : SpellsPart macros (.punct .rParen) ss step)
    (h : SpellsStmt macros ts body) :
    SpellsStmt macros (l :: p :: (is ++ (cs ++ (ss ++ ts)))) (.forLoop p.span init cond step body)
  | switch {l : Lexeme} {cs ts : List Lexeme} {opened : Span} {e : Expr} {body : Stmt}
    (hl : l.token = .word .switch) (hcond : SpellsCondition macros cs opened e) (h : SpellsStmt macros ts body) :
    SpellsStmt macros (l :: (cs ++ ts)) (.switch l.span opened e body)
  | case {l r : Lexeme} {ts : List Lexeme} {n : Int32} (hl : l.token = .word .case)
    (h : SpellsConstant macros ts n) (hr : r.token = .punct .colon) :
    SpellsStmt macros (l :: (ts ++ [r])) (.case l.span n)
  | default {l r : Lexeme} (hl : l.token = .word .default) (hr : r.token = .punct .colon) :
    SpellsStmt macros [l, r] (.default l.span)
  | breakOut {l r : Lexeme} (hl : l.token = .word .breakWord) (hr : r.token = .punct .semicolon) :
    SpellsStmt macros [l, r] (.breakOut l.span)
  | goOn {l r : Lexeme} (hl : l.token = .word .continueWord) (hr : r.token = .punct .semicolon) :
    SpellsStmt macros [l, r] (.goOn l.span)
  | ret {l r : Lexeme} (hl : l.token = .word .returnWord) (hr : r.token = .punct .semicolon) :
    SpellsStmt macros [l, r] (.ret l.span none)
  | retValue {l r : Lexeme} {ts : List Lexeme} {e : Expr} (hl : l.token = .word .returnWord)
    (h : Spells macros .comma ts e) (hr : r.token = .punct .semicolon) :
    SpellsStmt macros (l :: (ts ++ [r])) (.ret l.span (some e))

inductive SpellsBlock (macros : Macros) : List Lexeme → List Stmt → Prop where
  | nil {r : Lexeme} (hr : r.token = .punct .rBrace) : SpellsBlock macros [r] []
  | cons {ts ts' : List Lexeme} {s : Stmt} {ss : List Stmt} (h : SpellsStmt macros ts s)
    (h' : SpellsBlock macros ts' ss) : SpellsBlock macros (ts ++ ts') (s :: ss)

end

def Token.starts : Token → Bool
  | .int _ | .ident _ | .op _ | .punct .lParen => true
  | _ => false

theorem Spells.head_starts {macros : Macros} {level : Level} {ts : List Lexeme} {e : Expr}
    (h : Spells macros level ts e)
    : ∃ l ls, ts = l :: ls ∧ l.token.starts := by
  induction h with
  | number hl | name hl _ | constant hl _ | parens hl _ _ _ | negative hl _ | minus hl _ _ _ =>
    exact ⟨_, _, rfl, by rw [hl]; rfl⟩
  | incBefore hl _ _ | decBefore hl _ _ | plus hl _ _ | not hl _ _ | complement hl _ _ =>
    exact ⟨_, _, rfl, by rw [hl]; rfl⟩
  | postfixed _ ih | unary _ ih | operand _ ih | tighter _ _ ih | conditional _ ih | assignment _ ih
  | expression _ ih => exact ih
  | incBehind _ _ ih | decBehind _ _ ih | binary _ _ _ _ ih _ | both _ _ _ ih _ | either _ _ _ ih _
  | ternary _ _ _ _ _ ih _ _ | assign _ _ _ ih _ | update _ _ _ ih _ | comma _ _ _ ih _ =>
    obtain ⟨l, ls, rfl, hl⟩ := ih
    exact ⟨l, _, rfl, hl⟩

namespace Grammar

variable {macros : Macros} {l k r : Lexeme} {ls ks : List Lexeme} {final : Except Error Lexeme} {fuel : Nat} {c c' : Cursor}

theorem attempt_of_ok {α : Type} {read : Read α} {a : α} (h : read c = .ok a c') : attempt read c = (.ok a, c') := by
  unfold attempt
  rw [h]

theorem declarator_ident {x : String} (hl : l.token = .ident x) (hk : k.token ≠ .punct .lBracket) :
    declarator macros ⟨l :: k :: ks, final⟩ = .ok ⟨x, l.span, 0, []⟩ ⟨k :: ks, final⟩ := by
  have hstars : stars ⟨l :: k :: ks, final⟩ = .ok 0 ⟨l :: k :: ks, final⟩ := by
    have hnone : (l :: k :: ks).takeWhile (·.token == .op (.binary .mul)) = [] := by simp [hl]
    simp only [stars, bind, EStateM.bind, Read.get_apply, hnone]
    rfl
  have hident : Read.ident ⟨l :: k :: ks, final⟩ = .ok (x, l.span) ⟨k :: ks, final⟩ := by
    have hnext : Read.next ⟨l :: k :: ks, final⟩ = .ok l ⟨k :: ks, final⟩ := rfl
    simp only [Read.ident, bind, EStateM.bind, hnext, hl]
    rfl
  have hextents (n : Nat) : extents macros (n + 1) ⟨k :: ks, final⟩ = .ok [] ⟨k :: ks, final⟩ := by
    unfold extents
    simp only [bind, EStateM.bind, Read.eat_cons, beq_eq_false_iff_ne.mpr hk]
    rfl
  unfold declarator
  simp only [bind, EStateM.bind, hstars, hident, Read.get_apply, hextents]
  rfl

theorem ended_cons {s : Stmt} (hr : r.token = .punct .semicolon) : ended s ⟨r :: ls, final⟩ = (s, ⟨ls, final⟩) := by
  unfold ended
  simp only [bind_apply, expect_cons hr]
  rfl

end Grammar

section Parts

open Grammar

variable {macros : Macros} {ts : List Lexeme} {fuel : Nat} {rest : List Lexeme} {final : Except Error Lexeme}

theorem Spells.expression_eq {e : Expr} {r : Lexeme} {t : Token} (h : Spells macros .comma ts e) (hr : r.token = t)
    (ht : t.ends .comma) (hfuel : 8 * ts.length ≤ fuel + 1)
    : Grammar.expression macros fuel ⟨ts ++ r :: rest, final⟩ = (e, ⟨r :: rest, final⟩) :=
  h.reads.expression_eq h.length_pos hfuel (by rw [head_cons, hr]; exact ht)

theorem Spells.closed_eq {e : Expr} {r : Lexeme} {t : Token} (h : Spells macros .comma ts e) (hr : r.token = t)
    (ht : t.ends .comma) (hfuel : 8 * ts.length ≤ fuel + 1)
    : closed macros fuel t ⟨ts ++ r :: rest, final⟩ = (e, ⟨rest, final⟩) := by
  unfold closed
  simp only [bind_apply, h.expression_eq hr ht hfuel, expect_cons hr]
  rfl

theorem SpellsVariable.reads {d : Declared} (h : SpellsVariable macros ts d) {r : Lexeme}
    (hr : r.token = .punct .comma ∨ r.token = .punct .semicolon) (hfuel : 8 * ts.length ≤ fuel)
    : ∃ name c, declarator macros ⟨ts ++ r :: rest, final⟩ = .ok name c
        ∧ declared macros fuel name c = (d, ⟨r :: rest, final⟩) := by
  cases h with
  | plain hl =>
    refine ⟨_, _, declarator_ident hl (by rcases hr with hr | hr <;> simp [hr]), ?_⟩
    have hparen : (r.token == .punct .lParen) = false := by rcases hr with hr | hr <;> simp [hr]
    have hassign : (Cursor.mk (r :: rest) final).head.token ≠ .op .assign := by
      rcases hr with hr | hr <;> simp [head_cons, hr]
    unfold declared
    simp only [bind_apply, peek_apply, head_cons, hparen, Bool.false_eq_true, if_false, eat_of_ne hassign]
    rfl
  | @scalar l k x es e hl hk h =>
    simp only [List.length_cons] at hfuel
    refine ⟨_, _, declarator_ident hl (by simp [hk]), ?_⟩
    have hparen : (k.token == .punct .lParen) = false := by simp [hk]
    have he : assignment macros fuel ⟨es ++ r :: rest, final⟩ = (e, ⟨r :: rest, final⟩) :=
      h.reads fuel (r :: rest) final (by omega) (by rcases hr with hr | hr <;> rw [head_cons, hr] <;> rfl)
    unfold declared
    simp only [List.append_eq, bind_apply, peek_apply, head_cons, hparen, Bool.false_eq_true, if_false, eat_cons hk,
      Bool.not_true, List.isEmpty_nil, if_true, he]
    rfl

theorem SpellsVariables.reads {ds : List Declared} (h : SpellsVariables macros ts ds) (hfuel : 9 * ts.length ≤ fuel) :
    declaredList macros fuel ⟨ts ++ rest, final⟩ = (ds, ⟨rest, final⟩) := by
  induction h generalizing fuel with
  | @last ts r d h hr =>
    simp only [List.length_append, List.length_cons, List.length_nil] at hfuel
    obtain _ | fuel := fuel
    · omega
    obtain ⟨name, c, hname, hitem⟩ := h.reads (.inr hr) (show 8 * ts.length ≤ fuel by omega)
    have hcomma : (Cursor.mk (r :: rest) final).head.token ≠ .punct .comma := by simp [head_cons, hr]
    rw [List.append_assoc, List.singleton_append, declaredList, bind_apply, attempt_of_ok hname]
    simp only [bind_apply, hitem, eat_of_ne hcomma, Bool.false_eq_true, if_false, expect_cons hr]
    rfl
  | @cons ts ts' r d ds h hr _ ih =>
    simp only [List.length_append, List.length_cons] at hfuel
    obtain _ | fuel := fuel
    · omega
    obtain ⟨name, c, hname, hitem⟩ := h.reads (.inl hr) (show 8 * ts.length ≤ fuel by omega)
    rw [List.append_assoc, List.cons_append, declaredList, bind_apply, attempt_of_ok hname]
    simp only [bind_apply, hitem, eat_cons hr, if_true, ih (show 9 * ts'.length ≤ fuel by omega)]
    rfl

theorem SpellsCondition.reads {opened : Span} {e : Expr} (h : SpellsCondition macros ts opened e)
    (hfuel : 8 * ts.length ≤ fuel)
    : condition macros fuel ⟨ts ++ rest, final⟩ = ((opened, e, none), ⟨rest, final⟩) := by
  cases h with
  | @parens l r es e hl h hr =>
    simp only [List.length_cons, List.length_append] at hfuel
    have htokens : l :: (es ++ [r]) ++ rest = l :: (es ++ r :: rest) := by simp
    unfold condition
    simp only [htokens, bind_apply, expect_cons hl, h.expression_eq hr rfl (show _ ≤ fuel + 1 by omega), expect_cons hr]
    rfl

theorem Spells.head_ne {e : Expr} {t : Token} (h : Spells macros .comma ts e) (ht : t.starts = false) :
    (Cursor.mk (ts ++ rest) final).head.token ≠ t := by
  obtain ⟨l, ls, rfl, hl⟩ := h.head_starts
  intro heq
  rw [List.cons_append, head_cons] at heq
  rw [heq, ht] at hl
  cases hl

theorem SpellsPart.forCond_eq {cond : Option Expr} (h : SpellsPart macros (.punct .semicolon) ts cond)
    (hfuel : 8 * ts.length ≤ fuel)
    : forCond macros fuel ⟨ts ++ rest, final⟩ = ((cond, none), ⟨rest, final⟩) := by
  unfold forCond
  cases h with
  | missing hr =>
    simp only [List.singleton_append, bind_apply, eat_cons hr, if_true]
    rfl
  | @given es r e h hr =>
    simp only [List.length_append] at hfuel
    have hne : (Cursor.mk (es ++ r :: rest) final).head.token ≠ .punct .semicolon := h.head_ne rfl
    simp only [List.append_assoc, List.singleton_append, bind_apply, eat_of_ne hne, Bool.false_eq_true, if_false,
      h.expression_eq hr rfl (show _ ≤ fuel + 1 by omega), expect_cons hr]
    rfl

theorem SpellsPart.forStep_eq {step : Option Expr} (h : SpellsPart macros (.punct .rParen) ts step)
    (hfuel : 8 * ts.length ≤ fuel)
    : forStep macros fuel ⟨ts ++ rest, final⟩ = (step, ⟨rest, final⟩) := by
  unfold forStep
  cases h with
  | missing hr =>
    simp only [List.singleton_append, bind_apply, eat_cons hr, if_true]
    rfl
  | @given es r e h hr =>
    simp only [List.length_append] at hfuel
    have hne : (Cursor.mk (es ++ r :: rest) final).head.token ≠ .punct .rParen := h.head_ne rfl
    simp only [List.append_assoc, List.singleton_append, bind_apply, eat_of_ne hne, Bool.false_eq_true, if_false,
      h.closed_eq hr rfl (show _ ≤ fuel + 1 by omega)]
    rfl

theorem SpellsSimple.forInit_eq {s : Stmt} (h : SpellsSimple macros ts s) (hfuel : 9 * ts.length ≤ fuel) :
    forInit macros fuel ⟨ts ++ rest, final⟩ = (s, ⟨rest, final⟩) := by
  unfold forInit
  cases h with
  | empty hr =>
    simp only [List.singleton_append, bind_apply, peek_apply, head_cons, hr, advance_cons]
    rfl
  | @expr es r e h hr =>
    simp only [List.length_append] at hfuel
    have he : closed macros fuel (.punct .semicolon) ⟨es ++ r :: rest, final⟩ = (e, ⟨rest, final⟩) :=
      h.closed_eq hr rfl (by omega)
    rw [List.append_assoc, List.singleton_append]
    obtain ⟨l, ls, rfl, hl⟩ := h.head_starts
    simp only [List.cons_append] at he ⊢
    simp only [bind_apply, peek_apply, head_cons]
    cases htoken : l.token with
    | word w =>
      rw [htoken] at hl
      cases hl
    | punct p =>
      cases p with
      | semicolon =>
        rw [htoken] at hl
        cases hl
      | _ =>
        simp only [bind_apply, he]
        rfl
    | _ =>
      simp only [bind_apply, he]
      rfl
  | @declare l w base vs ds hl hw h =>
    simp only [List.length_cons] at hfuel
    have hds : declaredList macros fuel ⟨vs ++ rest, final⟩ = (ds, ⟨rest, final⟩) := h.reads (by omega)
    simp only [List.cons_append, bind_apply, peek_apply, head_cons, hl, hw, advance_cons, Grammar.declaration, hds]
    rfl

end Parts

namespace Grammar

variable {macros : Macros} {l k r : Lexeme} {ls ks : List Lexeme} {final : Except Error Lexeme} {fuel : Nat}
  {c c' c1 : Cursor} {opened : Span} {e : Expr} {s yes no : Stmt}

theorem statement_eq_forInit (hbrace : c.head.token ≠ .punct .lBrace)
    (hword : ∀ w, c.head.token = .word w → w.base? ≠ none)
    : statement macros (fuel + 1) c = forInit macros fuel c := by
  rw [statement]
  unfold forInit
  simp only [bind_apply, peek_apply]
  cases htoken : c.head.token with
  | word w =>
    cases hw : w.base? with
    | none => exact absurd hw (hword w htoken)
    | some base => simp only [hw]
  | punct p =>
    cases p with
    | lBrace => exact absurd htoken hbrace
    | _ => rfl
  | _ => rfl

theorem statement_keyword {w : Word} (hl : l.token = .word w) (hw : w.base? = none) :
    statement macros (fuel + 1) ⟨l :: ls, final⟩ = keyword macros fuel w l ⟨l :: ls, final⟩ := by
  rw [statement, bind_apply, peek_apply]
  simp only [head_cons, hl, hw]

theorem body_none (fuel : Nat) : body macros (fuel + 1) none = statement macros fuel := by
  rw [body]

theorem reads_label {n : Int32} (hvalue : constant macros ⟨ls, final⟩ = .ok n ⟨r :: ks, final⟩)
    (hr : r.token = .punct .colon)
    : (do
        let n ← constant macros
        let _ ← Read.expect (.punct .colon)
        return n : Read Int32) ⟨ls, final⟩ = .ok n ⟨ks, final⟩ := by
  simp only [bind, EStateM.bind, hvalue, Read.expect_cons hr]
  rfl

theorem statements_cons {ss : List Stmt} (hne : c.head.token ≠ .punct .rBrace) (heof : c.head.token ≠ .eof)
    (hs : statement macros fuel c = (s, c1)) (hss : statements macros fuel c1 = (ss, c'))
    : statements macros (fuel + 1) c = (s :: ss, c') := by
  rw [statements, bind_apply, peek_apply]
  cases htoken : c.head.token with
  | eof => exact absurd htoken heof
  | punct p =>
    cases p with
    | rBrace => exact absurd htoken hne
    | _ =>
      simp only [bind_apply, hs, hss]
      rfl
  | _ =>
    simp only [bind_apply, hs, hss]
    rfl

end Grammar

section Statements

open Grammar

variable {macros : Macros} {ts : List Lexeme} {s : Stmt} {rest : List Lexeme} {final : Except Error Lexeme}

theorem SpellsSimple.head (h : SpellsSimple macros ts s) :
    ∃ l ls, ts = l :: ls ∧ l.token ≠ .punct .lBrace ∧ ∀ w, l.token = .word w → w.base? ≠ none := by
  cases h with
  | empty hr => exact ⟨_, _, rfl, by simp [hr], by simp [hr]⟩
  | expr h =>
    obtain ⟨l, ls, rfl, hl⟩ := h.head_starts
    refine ⟨l, _, rfl, ?_, ?_⟩
    · intro htoken
      rw [htoken] at hl
      cases hl
    · intro w htoken
      rw [htoken] at hl
      cases hl
  | declare hl hw =>
    refine ⟨_, _, rfl, by simp [hl], ?_⟩
    intro w hword
    cases hl.symm.trans hword
    rw [hw]
    nofun

theorem SpellsSimple.statement_eq (h : SpellsSimple macros ts s) {fuel : Nat} (hfuel : 9 * ts.length ≤ fuel) :
    statement macros (fuel + 1) ⟨ts ++ rest, final⟩ = (s, ⟨rest, final⟩) := by
  rw [← h.forInit_eq hfuel]
  obtain ⟨l, ls, rfl, hbrace, hword⟩ := h.head
  exact statement_eq_forInit hbrace hword

def Token.isBehind : Token → Bool
  | .punct .rBrace | .eof | .word .elseWord => true
  | _ => false

theorem Token.not_isBehind_of_starts {t : Token} (h : t.starts) : t.isBehind = false := by
  cases t with
  | int n | ident x | op o => rfl
  | str bytes | word w | eof => cases h
  | punct p =>
    cases p with
    | lParen => rfl
    | _ => cases h

theorem SpellsStmt.head_isBehind (h : SpellsStmt macros ts s) : ∃ l ls, ts = l :: ls ∧ l.token.isBehind = false := by
  cases h with
  | simple h =>
    cases h with
    | empty hr => exact ⟨_, _, rfl, by rw [hr]; rfl⟩
    | expr h =>
      obtain ⟨l, ls, rfl, hl⟩ := h.head_starts
      exact ⟨l, _, rfl, Token.not_isBehind_of_starts hl⟩
    | @declare _ w _ _ _ hl hw =>
      refine ⟨_, _, rfl, ?_⟩
      rw [hl]
      cases w <;> first | rfl | cases hw
  | block hl | ifThen hl | ifElse hl | whileLoop hl | doLoop hl | forLoop hl | switch hl | case hl | default hl
  | breakOut hl | goOn hl | ret hl | retValue hl => exact ⟨_, _, rfl, by rw [hl]; rfl⟩

theorem SpellsBlock.length_pos {ss : List Stmt} (h : SpellsBlock macros ts ss) : 0 < ts.length := by
  cases h with
  | nil => exact Nat.one_pos
  | cons h =>
    obtain ⟨l, ls, rfl, -⟩ := h.head_isBehind
    exact Nat.succ_pos _

theorem SpellsBlock.head_ne_else {ss : List Stmt} (h : SpellsBlock macros ts ss) :
    (Cursor.mk (ts ++ rest) final).head.token ≠ .word .elseWord := by
  cases h with
  | nil hr => simp [head_cons, hr]
  | cons h =>
    obtain ⟨l, ls, rfl, hl⟩ := h.head_isBehind
    intro htoken
    rw [List.cons_append, List.cons_append, head_cons] at htoken
    rw [htoken] at hl
    cases hl

mutual

theorem SpellsStmt.reads {ts : List Lexeme} {s : Stmt} (h : SpellsStmt macros ts s) (fuel : Nat) (rest : List Lexeme)
    (final : Except Error Lexeme) (hfuel : 10 * ts.length ≤ fuel)
    (helse : s.isOpen → (Cursor.mk rest final).head.token ≠ .word .elseWord)
    : statement macros fuel ⟨ts ++ rest, final⟩ = (s, ⟨rest, final⟩) := by
  match h with
  | .simple h =>
    obtain ⟨l, ls, rfl, -⟩ := h.head
    rw [List.length_cons] at hfuel
    obtain _ | fuel := fuel
    · omega
    exact h.statement_eq (by rw [List.length_cons]; omega)
  | .block hl h =>
    rw [List.length_cons] at hfuel
    obtain _ | _ | fuel := fuel
    · omega
    · omega
    rw [List.cons_append, statement, bind_apply, peek_apply]
    simp only [head_cons, hl]
    rw [block, bind_apply, expect_cons hl]
    simp only [bind_apply, h.reads fuel rest final (by omega)]
    rfl
  | .ifThen hl hcond h =>
    simp only [List.length_cons, List.length_append] at hfuel
    obtain ⟨fuel, rfl⟩ : ∃ n, fuel = n + 3 := ⟨fuel - 3, by omega⟩
    have hyes := h.reads fuel rest final (by omega) fun _ => helse rfl
    rw [List.cons_append, List.append_assoc, statement_keyword hl rfl, keyword, if_neg (by decide)]
    simp only [bind_apply, advance_cons, hcond.reads (show _ ≤ fuel + 1 by omega), body_none, hyes,
      eat_of_ne (helse rfl), Bool.false_eq_true, if_false]
    rfl
  | .ifElse hl hcond h hclosed hk h' =>
    simp only [List.length_cons, List.length_append] at hfuel
    obtain ⟨fuel, rfl⟩ : ∃ n, fuel = n + 3 := ⟨fuel - 3, by omega⟩
    have hyes := fun rest => h.reads fuel rest final (by omega) (by rw [hclosed]; nofun)
    have hno := h'.reads (fuel + 1) rest final (by omega) helse
    rw [List.cons_append, List.append_assoc, List.append_assoc, List.cons_append, statement_keyword hl rfl, keyword,
      if_neg (by decide)]
    simp only [bind_apply, advance_cons, hcond.reads (show _ ≤ fuel + 1 by omega), body_none, hyes, eat_cons hk, if_true,
      hno]
    rfl
  | .whileLoop hl hcond h | .switch hl hcond h =>
    simp only [List.length_cons, List.length_append] at hfuel
    obtain ⟨fuel, rfl⟩ : ∃ n, fuel = n + 3 := ⟨fuel - 3, by omega⟩
    have hbody := h.reads fuel rest final (by omega) helse
    rw [List.cons_append, List.append_assoc, statement_keyword hl rfl, keyword, if_neg (by decide)]
    simp only [bind_apply, advance_cons, hcond.reads (show _ ≤ fuel + 1 by omega), body_none, hbody]
    rfl
  | .doLoop hl h hk hcond hr =>
    simp only [List.length_cons, List.length_append] at hfuel
    obtain _ | _ | fuel := fuel
    · omega
    · omega
    have hbody := fun rest => h.reads fuel (_ :: rest) final (by omega) (by rw [head_cons, hk]; nofun)
    rw [List.cons_append, List.append_assoc, List.cons_append, List.append_assoc, List.singleton_append,
      statement_keyword hl rfl, keyword, if_neg (by decide)]
    simp only [bind_apply, advance_cons, hbody, expect_cons hk, hcond.reads (show _ ≤ fuel by omega)]
    exact ended_cons hr
  | .forLoop hl hp hinit hcond hstep h =>
    simp only [List.length_cons, List.length_append] at hfuel
    obtain _ | _ | fuel := fuel
    · omega
    · omega
    have hbody := h.reads fuel rest final (by omega) helse
    simp only [List.cons_append, List.append_assoc]
    rw [statement_keyword hl rfl, keyword, if_neg (by decide)]
    simp only [bind_apply, advance_cons, expect_cons hp, hinit.forInit_eq (show _ ≤ fuel by omega),
      hcond.forCond_eq (show _ ≤ fuel by omega), hstep.forStep_eq (show _ ≤ fuel by omega), hbody]
    rfl
  | .case hl h hr =>
    rw [List.length_cons] at hfuel
    obtain _ | _ | fuel := fuel
    · omega
    · omega
    rw [List.cons_append, List.append_assoc, List.singleton_append, statement_keyword hl rfl, keyword, if_neg (by decide)]
    simp only [bind_apply, advance_cons, caseLabel, attempt_of_ok (reads_label (h _ rest final hr) hr)]
    rfl
  | .default hl hr =>
    rw [List.length_cons] at hfuel
    obtain _ | _ | fuel := fuel
    · omega
    · omega
    rw [List.cons_append, List.singleton_append, statement_keyword hl rfl, keyword, if_neg (by decide)]
    simp only [bind_apply, advance_cons, defaultLabel, expect_cons hr]
    rfl
  | .breakOut hl hr | .goOn hl hr | .ret hl hr =>
    rw [List.length_cons] at hfuel
    obtain _ | _ | fuel := fuel
    · omega
    · omega
    rw [List.cons_append, List.singleton_append, statement_keyword hl rfl, keyword, if_neg (by decide)]
    · simp only [bind_apply, advance_cons, returned, eat_cons hr, ended_cons hr, if_true] <;> rfl
    all_goals nofun
  | @SpellsStmt.retValue _ l r es e hl h hr =>
    simp only [List.length_cons, List.length_append] at hfuel
    obtain _ | _ | fuel := fuel
    · omega
    · omega
    have hne : (Cursor.mk (es ++ r :: rest) final).head.token ≠ .punct .semicolon := h.head_ne rfl
    rw [List.cons_append, List.append_assoc, List.singleton_append, statement_keyword hl rfl, keyword, if_neg (by decide)]
    · simp only [bind_apply, advance_cons, returned, eat_of_ne hne, Bool.false_eq_true, if_false,
        h.expression_eq hr rfl (show _ ≤ fuel + 1 by omega), ended_cons hr]
    all_goals nofun

theorem SpellsBlock.reads {ts : List Lexeme} {ss : List Stmt} (h : SpellsBlock macros ts ss) (fuel : Nat)
    (rest : List Lexeme) (final : Except Error Lexeme) (hfuel : 10 * ts.length ≤ fuel)
    : statements macros fuel ⟨ts ++ rest, final⟩ = (ss, ⟨rest, final⟩) := by
  match h with
  | .nil hr =>
    rw [List.length_cons] at hfuel
    obtain _ | fuel := fuel
    · omega
    rw [List.singleton_append, statements, bind_apply, peek_apply]
    simp only [head_cons, hr, bind_apply, advance_cons]
    rfl
  | .cons h h' =>
    obtain ⟨l, ls, rfl, hl⟩ := h.head_isBehind
    have hpos := h'.length_pos
    simp only [List.length_cons, List.length_append] at hfuel
    obtain _ | fuel := fuel
    · omega
    rw [List.append_assoc]
    refine statements_cons ?_ ?_ (h.reads fuel _ final (by rw [List.length_cons]; omega) fun _ => h'.head_ne_else)
      (h'.reads fuel rest final (by omega))
    · intro htoken
      rw [List.cons_append, head_cons] at htoken
      rw [htoken] at hl
      cases hl
    · intro htoken
      rw [List.cons_append, head_cons] at htoken
      rw [htoken] at hl
      cases hl

end

theorem SpellsStmt.block_eq {ss : List Stmt} (h : SpellsStmt macros ts (.block ss)) {fuel : Nat}
    (hfuel : 10 * ts.length ≤ fuel) (rest : List Lexeme) (final : Except Error Lexeme)
    : Grammar.block macros fuel ⟨ts ++ rest, final⟩ = (.block ss, ⟨rest, final⟩) := by
  cases h with
  | simple h => cases h
  | block hl h =>
    rw [List.length_cons] at hfuel
    obtain _ | fuel := fuel
    · omega
    rw [List.cons_append, Grammar.block, bind_apply, expect_cons hl]
    simp only [bind_apply, h.reads fuel rest final (by omega)]
    rfl

end Statements

end Handheld.Source
