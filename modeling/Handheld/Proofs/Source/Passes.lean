import Handheld.Proofs.Source.Assembly
import Handheld.Proofs.Source.Records

/-!
The survey reads declarations and the walk over the definitions skips them. The two stay in step as long as every body
belongs to the name that stands first in its declaration.
-/
namespace Handheld.Source

open Asm Read

variable {e : Expr} {r : Code × Body} {first : Bool} {ds : List Declaration} {n : Nat}

variable {base : Base} {g : Globals} {fs : List TopLevel} {found : Option Declaration} {x : String}
  {line : Line}

section Sound

theorem Expr.Values.isSound {span : Span} {b b' : Body} {code : Code} {ty : Ty}
    (h : e.Values (fun e _ _ _ _ => e.isSound) span b code ty b') : e.isSound := by
  obtain ⟨_, _, _, hsound, -⟩ := h
  exact hsound

theorem Expr.Objects.isSound {span : Span} {b b' : Body} {code : Code} {ty : Ty}
    (h : e.Objects (fun e _ _ _ _ => e.isSound) span b code ty b') : e.isSound := by
  obtain ⟨_, _, _, hsound, -⟩ := h
  exact hsound

theorem Expr.Arguments.areSound {args : List Expr} {span : Span} {b b' : Body} {code : Code}
    (h : Expr.Arguments (fun e _ _ _ _ => e.isSound) span args b code b') : Expr.areSound args := by
  induction args generalizing b code with
  | nil => rfl
  | cons arg args ih =>
    obtain ⟨_, _, _, _, harg, hargs, -⟩ := h
    rw [Expr.areSound, harg.isSound, ih hargs]
    rfl

theorem Expr.compositional_isSound (ctx : Context) : Expr.Compositional ctx fun e _ _ _ _ => e.isSound where
  num _ _ := rfl
  str _ _ := rfl
  name _ := rfl
  call _ hargs _ := hargs.areSound
  index hbase _ hsub := by simp [Expr.isSound, hbase, hsub.isSound]
  step h := h.isSound
  unary _ h := h.isSound
  address h _ := h
  binary h1 h2 := by simp [Expr.isSound, h1.isSound, h2.isSound]
  logic h1 h2 := by simp [Expr.isSound, h1.isSound, h2.isSound]
  ternary h1 h2 h3 := by simp [Expr.isSound, h1.isSound, h2.isSound, h3.isSound]
  assign h1 h2 := by simp [Expr.isSound, h1.isSound, h2.isSound]
  update h1 h2 := by simp [Expr.isSound, h1.isSound, h2.isSound]
  comma h1 h2 := by simp [Expr.isSound, h1, h2]

theorem Expr.isSound_of_emit (ctx : Context) (e : Expr) (b : Body) (r : (Code × Place) × Body)
    (h : e.emit ctx b = .ok r) : e.isSound :=
  (compositional_isSound ctx).has e b r.1.1 r.1.2 r.2 h

variable {ctx : Context} {b b' : Body} {code : Code} {span : Span} {ty : Ty}

theorem Expr.Loads.isSound (h : e.Loads ctx span b code ty b') : e.isSound := by
  obtain ⟨_, _, _, he, -⟩ := h
  exact e.isSound_of_emit ctx _ _ he

theorem Expr.isSound_of_emitEffect (h : e.emitEffect ctx b = .ok r) : e.isSound := by
  obtain ⟨_, _, _, he, -⟩ := Expr.emitEffect_eq_ok_iff.mp h
  exact e.isSound_of_emit ctx _ _ he

theorem isSound_of_emitElements {xs : List Element} {r : List Code × Body} (h : emitElements ctx xs b = .ok r) :
    xs.all (·.value.isSound) := by
  induction xs generalizing b r with
  | nil => rfl
  | cons x xs ih =>
    obtain ⟨_, _, _, hx, _, _, hxs, -⟩ := emitElements_cons_eq_ok_iff.mp h
    rw [List.all_cons, hx.isSound, ih hxs]
    rfl

theorem Declared.isSound_of_emit {d : Declared} (h : d.emit ctx base b = .ok r) : d.isSound := by
  cases d with
  | missing e => exact (Declared.emit_missing_eq_ok_iff.mp h).elim
  | function d => exact (Declared.emit_function_eq_ok_iff.mp h).elim
  | plain d => rfl
  | text d bytes => rfl
  | scalar d value =>
    obtain ⟨-, _, _, -, _, _, _, hvalue, -⟩ := Declared.emit_scalar_eq_ok_iff.mp h
    exact hvalue.isSound
  | list d elements =>
    obtain ⟨-, _, _, helements, -⟩ := Declared.emit_list_eq_ok_iff.mp h
    exact isSound_of_emitElements helements

theorem isSound_of_emitDeclared {ds : List Declared} (h : emitDeclared ctx base ds b = .ok r) : ds.all (·.isSound) := by
  induction ds generalizing b r with
  | nil => rfl
  | cons d ds ih =>
    obtain ⟨_, _, hd, _, _, hds, -⟩ := emitDeclared_cons_eq_ok_iff.mp h
    rw [List.all_cons, Declared.isSound_of_emit hd, ih hds]
    rfl

theorem Stmt.Emits.isSound {s : Stmt} (h : Stmt.Emits ctx b s code b') : s.isSound := by
  induction h with
  | empty | nil | case | default | breakOut | goOn | ret => rfl
  | cons _ _ _ _ ih ih' =>
    rw [Stmt.isSound] at ih' ⊢
    rw [Stmt.areSound, ih, ih']
    rfl
  | expr h | retEffect _ h => exact Expr.isSound_of_emitEffect h
  | declare h => exact isSound_of_emitDeclared h
  | retValue _ h => exact h.isSound
  | ifElse hcond _ _ _ _ ih ih' =>
    rw [Stmt.isSound, hcond.isSound, ih, ih']
    rfl
  | ifThen hcond _ _ ih | whileLoop hcond _ _ ih | doLoop _ _ hcond ih | switch _ hcond _ _ ih =>
    rw [Stmt.isSound, hcond.isSound, ih]
    rfl
  | @forLoop _ _ _ _ cond step _ _ _ _ _ _ _ _ _ _ htest hstep _ _ _ ih ih' =>
    have hcond : cond.all (·.isSound) := by
      cases cond with
      | none => rfl
      | some cond =>
        obtain ⟨_, _, hcond, -⟩ := htest
        exact hcond.isSound
    have hstep : step.all (·.isSound) := by
      cases step with
      | none => rfl
      | some step => exact Expr.isSound_of_emitEffect hstep
    rw [Stmt.isSound, ih, hcond, hstep, ih']
    rfl

theorem isSound_of_emitFunctions {labels : Nat} (h : emitFunctions g labels fs = .ok code) : ∀ f ∈ fs, f.isSound := by
  intro f hf
  obtain ⟨_, _, _, _, _, hemit, -⟩ := exists_emit_of_mem hf h
  cases f with
  | missing e => exact (TopLevel.emit_missing_eq_ok_iff.mp hemit).elim
  | function name ret params body =>
    obtain ⟨_, -, _, _, hbody, -⟩ := TopLevel.emit_function_eq_ok_iff.mp hemit
    exact (body.emits hbody).isSound

end Sound

def TopLevel.Defines : TopLevel → Declaration → Prop
  | missing _, _ => False
  | function name ret params _, d => name = d.name ∧ ret = d.function.ret ∧ params.length = d.function.params

section Skipping

variable {macros : Macros} {fuel : Nat} {g g' : Globals} {c c' : Cursor}

theorem skipBraces_of_statements (hclosed : c.Closed) (h : Stmt.areSound (Grammar.statements macros fuel c).1) :
    skipBraces 1 c.rest = some (Grammar.statements macros fuel c).2.rest := by
  induction fuel generalizing c with
  | zero => cases h
  | succ fuel ih =>
    have hmore (heq : Grammar.statements macros (fuel + 1) c = ((do
        let s ← Grammar.statement macros fuel
        return s :: (← Grammar.statements macros fuel) : Grammar.Tree (List Stmt)) c)) :
        skipBraces 1 c.rest = some (Grammar.statements macros (fuel + 1) c).2.rest := by
      rw [heq] at h ⊢
      obtain ⟨ts, hpast, hts⟩ := (Grammar.takes_statement fuel).past macros hclosed
      obtain ⟨hs, hss⟩ := Bool.and_eq_true_iff.mp h
      rw [hpast.rest, (hts hs).2 0]
      exact ih (hclosed.past hpast) hss
    cases htoken : c.head.token with
    | eof =>
      unfold Grammar.statements at h
      rw [Grammar.bind_apply, Grammar.peek_apply] at h
      simp only [htoken] at h
      cases h
    | punct p =>
      cases p with
      | rBrace =>
        have heq : Grammar.statements macros (fuel + 1) c = ([], c.tail) := by
          unfold Grammar.statements
          rw [Grammar.bind_apply, Grammar.peek_apply]
          simp only [htoken]
          rfl
        obtain ⟨ls, hrest⟩ := hclosed.exists_cons (by simp [htoken])
        simp [heq, Cursor.tail, hrest, skipBraces, htoken]
      | _ =>
        apply hmore
        conv_lhs => unfold Grammar.statements
        rw [Grammar.bind_apply, Grammar.peek_apply]
        simp only [htoken]
    | _ =>
      apply hmore
      conv_lhs => unfold Grammar.statements
      rw [Grammar.bind_apply, Grammar.peek_apply]
      simp only [htoken]

theorem skipBraces_of_block (hclosed : c.Closed) (hopen : c.head.token = .punct .lBrace)
    (h : (Grammar.block macros fuel c).1.isSound)
    : skipBraces 1 c.tail.rest = some (Grammar.block macros fuel c).2.rest := by
  cases fuel with
  | zero => cases h
  | succ fuel =>
    obtain ⟨ls, hrest⟩ := hclosed.exists_cons (by simp [hopen])
    have hcursor : c = ⟨c.head :: ls, c.final⟩ := by
      rw [← hrest]
    have hblock : Grammar.block macros (fuel + 1) c
        = (.block (Grammar.statements macros fuel c.tail).1, (Grammar.statements macros fuel c.tail).2) := by
      unfold Grammar.block
      rw [Grammar.bind_apply, hcursor, Grammar.expect_cons hopen]
      rfl
    rw [hblock] at h ⊢
    exact skipBraces_of_statements hclosed.tail h

theorem Cursor.eq_of_rest (hrest : c.rest = c'.rest) (hfinal : c.final = c'.final) : c = c' := by
  obtain ⟨rest, final⟩ := c
  cases hrest
  cases hfinal
  rfl

theorem skipToSemicolon_of_past {ts : List Lexeme} (hpast : c.Past ts c') (hts : Smooth 0 ts) :
    skipToSemicolon 0 c.rest = skipToSemicolon 0 c'.rest := by
  rw [hpast.rest]
  exact hts 0 c'.rest

theorem skipToSemicolon_of_head (hclosed : c.Closed) (h : c.head.token = .punct .semicolon) :
    skipToSemicolon 0 c.rest = some c.tail.rest := by
  obtain ⟨ls, hrest⟩ := hclosed.exists_cons (by simp [h])
  simp [Cursor.tail, hrest, skipToSemicolon, h]

theorem Declares.skips (h : Declares base first g c found g' c') (hclosed : c.Closed)
    (hfound : ∀ d ∈ found, d.function.defined = false)
    : skipToSemicolon 0 c.rest = some c'.rest ∧ c'.final = c.final := by
  induction h with
  | prototype hd _ _ hps hend _ =>
    obtain ⟨ts, hpast, hts⟩ := past_header hd hps
    rw [skipToSemicolon_of_past hpast (smooth_of_each hts), skipToSemicolon_of_head (hclosed.past hpast) hend]
    exact ⟨rfl, hpast.final⟩
  | definition => cases hfound _ rfl
  | last hd _ hglobal hend =>
    obtain ⟨ts, hpast, hts⟩ := takes_declarator.past hd
    obtain ⟨us, hpast', hus, -⟩ := (takesAt_globalRest _ _ _ _).ok _ _ hglobal
    have hclosed1 := hclosed.past hpast
    have hclosed2 := hclosed1.past hpast'
    rw [skipToSemicolon_of_past hpast (smooth_of_each hts), skipToSemicolon_of_past hpast' (hus hclosed1),
      skipToSemicolon_of_head hclosed2 hend]
    exact ⟨rfl, (hpast.trans hpast').final⟩
  | more hd _ hglobal hcomma _ ih =>
    obtain ⟨ts, hpast, hts⟩ := takes_declarator.past hd
    obtain ⟨us, hpast', hus, -⟩ := (takesAt_globalRest _ _ _ _).ok _ _ hglobal
    have hclosed1 := hclosed.past hpast
    have hclosed2 := hclosed1.past hpast'
    obtain ⟨hskip, hfinal⟩ := ih hclosed2.tail hfound
    rw [skipToSemicolon_of_past hpast (smooth_of_each hts), skipToSemicolon_of_past hpast' (hus hclosed1),
      skipToSemicolon_of_past (Cursor.past_tail _) (smooth_of_each (Cursor.each_take_one hcomma rfl))]
    exact ⟨hskip, hfinal.trans (hpast.trans hpast').final⟩

theorem Declares.not_first (h : Declares base first g c found g' c')
    (hfirst : first = false) : ∀ d ∈ found, d.first = false := by
  induction h with
  | prototype | definition =>
    rintro d ⟨⟩
    exact hfirst
  | last =>
    rintro d ⟨⟩
  | more _ _ _ _ _ ih => exact ih rfl

theorem behindLine_of_directive (hclosed : c.Closed) (h : directive g c = .ok g' c')
    (hnext : (c.tail.behindLine c.head.span.line).head.token.isOperand = false)
    : c' = c.tail.behindLine c.head.span.line := by
  rcases of_directive h with ⟨-, rfl, -⟩ | ⟨name, v, ts, -, -, hdefine, hline, hname, hline', hpast, hts, hend⟩
  · rfl
  · obtain ⟨ls, hrest⟩ := hclosed.tail.exists_cons (by simp [hdefine])
    obtain ⟨ls', hrest'⟩ := hclosed.tail.tail.exists_cons (by simp [hname])
    have hls : c.tail.tail.rest = ls := by
      rw [Cursor.tail, hrest]
      rfl
    have hls' : c.tail.tail.tail.rest = ls' := by
      rw [Cursor.tail, hrest']
      rfl
    have hdrop : (c.tail.behindLine c.head.span.line).rest
        = (ts ++ c'.rest).dropWhile (·.span.line == c.head.span.line) := by
      rw [Cursor.behindLine, hrest, ← hls, hrest', ← hls', hpast.rest, List.dropWhile_cons_of_pos (by simp [hline]),
        List.dropWhile_cons_of_pos (by simp [hline'])]
    rw [List.dropWhile_append] at hdrop
    cases hmore : ts.dropWhile (·.span.line == c.head.span.line) with
    | nil =>
      have hstay : c'.rest.dropWhile (·.span.line == c.head.span.line) = c'.rest := by
        rw [← Text.drop_length_takeWhile, hend]
        rfl
      simp only [hmore, List.isEmpty_nil, if_true, hstay] at hdrop
      exact Cursor.eq_of_rest hdrop.symm hpast.final
    | cons t us =>
      -- a value that goes on below its line leaves a token that starts no declaration
      have ht : t ∈ ts := (List.dropWhile_sublist _).subset (hmore ▸ List.mem_cons_self)
      simp only [hmore, List.isEmpty_cons, Bool.false_eq_true, if_false] at hdrop
      rw [Cursor.head, hdrop] at hnext
      cases hnext.symm.trans (hts t ht)

end Skipping

section Agreement

variable {macros : Macros} {g g' : Globals} {c c' : Cursor}

structure Declarator.Alike (d d' : Declarator) : Prop where
  name : d.name = d'.name
  pointer : d.pointer = d'.pointer
  dims : d.dims = [] ↔ d'.dims = []

theorem alike_declarator {m m' : Macros} {d d' : Declarator} {c1 c2 : Cursor} (h : declarator m c = .ok d c1)
    (h' : declarator m' c = .ok d' c2) : c1 = c2 ∧ d.Alike d' := by
  obtain ⟨hc, hκ⟩ := takes_declarator.alike h h'
  simp only [Prod.mk.injEq] at hκ
  refine ⟨hc, hκ.1, hκ.2.1, ?_⟩
  rw [← List.isEmpty_iff, ← List.isEmpty_iff, hκ.2.2]

theorem Walks.not_operand {reads : Cursor → Cursor → Stmt × Cursor → Prop} (h : Walks macros reads c fs) :
    c.head.token.isOperand = false := by
  cases h with
  | done h | directive h | semicolon h | global h | prototype h | definition h =>
    rw [h]
    rfl

theorem Declares.agree {w : Word} (h : Declares base true g c.tail found g' c') (hclosed : c.Closed)
    (hw : c.head.token = .word w) (hbase : w.base? = some base)
    (hfirst : ∀ d ∈ found, d.function.defined → d.first) (hwalks : Walks macros (Blocks macros) c fs)
    (hsound : ∀ f ∈ fs, f.isSound)
    : ∃ fs1 fs2, fs = fs1 ++ fs2 ∧ Walks macros (Blocks macros) c' fs2
        ∧ List.Forall₂ TopLevel.Defines fs1 (found.toList.filter (·.function.defined)) := by
  cases hwalks with
  | done hw' | directive hw' | semicolon hw' => cases hw.symm.trans hw'
  | @global _ c1 _ _ _ _ rest hw' hbase' hd' hvar' hskip' hrest' =>
    have hundefined : ∀ d ∈ found, d.function.defined = false := by
      cases h with
      | prototype =>
        rintro d ⟨⟩
        rfl
      | definition hd hdims hopen =>
        obtain ⟨rfl, hlike⟩ := alike_declarator hd hd'
        exact (hvar' ⟨hlike.dims.mp hdims, hopen⟩).elim
      | last =>
        rintro d ⟨⟩
      | more _ _ _ _ hrest =>
        intro d hd
        rw [Bool.eq_false_iff]
        intro hdefined
        cases (hfirst d hd hdefined).symm.trans (hrest.not_first rfl d hd)
    obtain ⟨hskip, hfinal⟩ := h.skips hclosed.tail hundefined
    obtain ⟨ts, hpast, hts⟩ := takes_declarator.past hd'
    rw [skipToSemicolon_of_past hpast (smooth_of_each hts), hskip', Option.some.injEq] at hskip
    have hcursor : { c1 with rest := rest } = c' := Cursor.eq_of_rest hskip (hpast.final.trans hfinal.symm)
    refine ⟨[], fs, rfl, hcursor ▸ hrest', ?_⟩
    rw [List.filter_eq_nil_iff.mpr fun d hd => by simp [hundefined d (Option.mem_toList.mp hd)]]
    exact .nil
  | prototype hw' hbase' hd' hdims' hopen' hps' hend' hrest' =>
    cases hw.symm.trans hw'
    cases hbase.symm.trans hbase'
    cases h with
    | prototype hd _ _ hps =>
      obtain ⟨rfl, hlike⟩ := alike_declarator hd hd'
      obtain ⟨rfl, hparams⟩ := takes_params.alike hps hps'
      exact ⟨[], _, rfl, hrest', .nil⟩
    | definition hd _ _ hps hbody =>
      obtain ⟨rfl, hlike⟩ := alike_declarator hd hd'
      obtain ⟨rfl, hparams⟩ := takes_params.alike hps hps'
      cases hbody.symm.trans hend'
    | last hd hvar | more hd hvar =>
      obtain ⟨rfl, hlike⟩ := alike_declarator hd hd'
      exact (hvar ⟨hlike.dims.mpr hdims', hopen'⟩).elim
  | definition hw' hbase' hd' hdims' hopen' hps' hbody' hread' hrest' =>
    obtain ⟨fuel, rfl⟩ := hread'
    cases hw.symm.trans hw'
    cases hbase.symm.trans hbase'
    cases h with
    | prototype hd _ _ hps hend =>
      obtain ⟨rfl, hlike⟩ := alike_declarator hd hd'
      obtain ⟨rfl, hparams⟩ := takes_params.alike hps hps'
      exact (hbody' hend).elim
    | @definition _ _ _ _ _ c2 _ _ rest hd _ _ hps hbody hskip =>
      obtain ⟨rfl, hlike⟩ := alike_declarator hd hd'
      obtain ⟨rfl, hparams⟩ := takes_params.alike hps hps'
      obtain ⟨ts, hpast, -⟩ := past_header hd hps
      have hclosed2 := hclosed.tail.past hpast
      have hblock := skipBraces_of_block hclosed2 hbody (hsound _ List.mem_cons_self)
      rw [hskip, Option.some.injEq] at hblock
      obtain ⟨us, hpast', -⟩ := (Grammar.takes_block fuel).past macros hclosed2
      have hcursor : { c2 with rest := rest } = (Grammar.block macros _ c2).2 :=
        Cursor.eq_of_rest hblock hpast'.final.symm
      refine ⟨[_], _, rfl, hcursor ▸ hrest', .cons ⟨hlike.name.symm, ?_, congrArg List.length hparams.symm⟩ .nil⟩
      · rw [Declarator.ty, ← hlike.pointer]
        rfl
    | last hd hvar | more hd hvar =>
      obtain ⟨rfl, hlike⟩ := alike_declarator hd hd'
      exact (hvar ⟨hlike.dims.mpr hdims', hopen'⟩).elim

theorem Surveys.agree (h : Surveys g c ds g' c') (hclosed : c.Closed)
    (hfirst : ∀ d ∈ ds, d.function.defined → d.first) (hwalks : Walks macros (Blocks macros) c fs)
    (hsound : ∀ f ∈ fs, f.isSound)
    : List.Forall₂ TopLevel.Defines fs (ds.filter (·.function.defined)) := by
  induction h generalizing fs with
  | done h =>
    cases hwalks with
    | done => exact .nil
    | directive h' | semicolon h' | global h' | prototype h' | definition h' => cases h.symm.trans h'
  | directive h hd hrest ih =>
    cases hwalks with
    | directive h' hwalks' =>
      cases behindLine_of_directive hclosed hd hwalks'.not_operand
      obtain ⟨ts, hpast⟩ := past_of_directive hd
      exact ih (hclosed.past hpast) hfirst hwalks' hsound
    | done h' | semicolon h' | global h' | prototype h' | definition h' => cases h.symm.trans h'
  | semicolon h hrest ih =>
    cases hwalks with
    | semicolon h' hwalks' => exact ih hclosed.tail hfirst hwalks' hsound
    | done h' | directive h' | global h' | prototype h' | definition h' => cases h.symm.trans h'
  | declaration h hbase hd hrest ih =>
    obtain ⟨fs1, fs2, rfl, hwalks2, hdefines⟩ := hd.agree hclosed h hbase
      (fun d hfound => hfirst d (List.mem_append_left _ (Option.mem_toList.mpr hfound))) hwalks hsound
    obtain ⟨ts, hpast⟩ := hd.past
    have hrest := ih (hclosed.tail.past hpast) (fun d hd => hfirst d (List.mem_append_right _ hd)) hwalks2
      fun f hf => hsound f (List.mem_append_right _ hf)
    rw [List.filter_append]
    exact List.rel_append hdefines hrest

end Agreement

def TopLevel.isNamed (x : String) : TopLevel → Bool
  | missing _ => false
  | function name _ _ _ => name == x

section Labels

variable {code : Code}

theorem countP_isNamed (h : List.Forall₂ TopLevel.Defines fs (ds.filter (·.function.defined))) (x : String)
    : fs.countP (·.isNamed x) = definitionsOf x ds := by
  have hcount : ∀ {fs : List TopLevel} {ds : List Declaration}, List.Forall₂ TopLevel.Defines fs ds →
      fs.countP (·.isNamed x) = ds.countP (·.name == x) := by
    intro fs ds h
    induction h with
    | nil => rfl
    | @cons f d fs ds hf _ ih =>
      rw [List.countP_cons, List.countP_cons, ih]
      cases f with
      | missing => exact hf.elim
      | function => rw [TopLevel.isNamed, hf.1]
  rw [hcount h, List.countP_filter, definitionsOf]

theorem labels_statements_append (n : Nat) (a b : Code) :
    labels (Code.statements n (a ++ b)) = labels (a.statements n) ++ labels (b.statements (n + a.length)) := by
  rw [Code.statements_append, labels, List.filterMap_append]
  rfl

section

variable (hx : Lexer.isIdent x.toList)

include hx

theorem count_labels_of_lined (h : Lined g code) : (labels (code.statements n)).count x = 0 := by
  rw [List.count_eq_zero]
  intro hmem
  obtain ⟨s, hs, hlabel⟩ := List.mem_filterMap.mp hmem
  obtain ⟨i, line, hline, rfl⟩ := mem_statements hs
  have hbody := h line (List.mem_iff_getElem?.mpr ⟨i, hline⟩)
  obtain ⟨k, -, rfl⟩ := hbody.fresh_of_label hlabel
  have hdot := ne_dot_of_isIdent hx
  rw [Label.toList_text_fresh] at hdot
  exact hdot rfl

theorem count_labels_of_functions {lo : Nat} (hnear : g.Near) (h : emitFunctions g lo fs = .ok code)
    : (labels (code.statements n)).count x = fs.countP (·.isNamed x) := by
  induction fs generalizing lo n code with
  | nil =>
    cases h
    rfl
  | cons f fs ih =>
    obtain ⟨code1, labels1, hf, code2, hfs, rfl⟩ := emitFunctions_cons_eq_ok_iff.mp h
    rw [labels_statements_append, List.count_append, ih hfs, List.countP_cons, Nat.add_comm]
    congr 1
    cases f with
    | missing e => exact (TopLevel.emit_missing_eq_ok_iff.mp hf).elim
    | function name ret params body =>
      obtain ⟨size, c, rfl, -, hsealed⟩ := TopLevel.lines_of_emit hnear hf
      rw [Code.statements, Code.statements, labels_cons, labels_cons, List.count_append, List.count_append,
        count_labels_of_lined hx hsealed.lines, TopLevel.isNamed]
      change List.count x [name] + (0 + 0) = _
      rw [List.count_singleton]
      rfl

theorem render_ne_of_isIdent (hline : ∀ l, line ≠ .label l) : line.render ≠ x ++ ":" := by
  intro heq
  have hhead : line.render.toList.head? = some ' ' := by
    cases line with
    | label l => exact (hline l rfl).elim
    | op opcode args =>
      rw [Line.render, toList_foldl_render, String.toList_append]
      rfl
    | call | sys | data =>
      rw [Line.render, String.toList_append]
      rfl
  rw [heq, String.toList_append] at hhead
  cases hchars : x.toList with
  | nil =>
    rw [hchars] at hx
    cases hx
  | cons c cs =>
    rw [hchars] at hx hhead
    cases hhead
    cases hx

theorem count_lines (h : ∀ line ∈ code, line.Named) (n : Nat) :
    (Text.lines code.render).count (x ++ ":") = (labels (code.statements n)).count x := by
  rw [Code.lines_render h]
  clear h
  induction code generalizing n with
  | nil => rfl
  | cons line code ih =>
    rw [List.map_cons, List.count_cons, ih (n + 1), Code.statements, labels_cons, List.count_append, Nat.add_comm]
    congr 1
    cases line with
    | label l =>
      have hsame : ((Line.label l).render == x ++ ":") = (l.text == x) := by
        rw [Bool.eq_iff_iff, beq_iff_eq, beq_iff_eq]
        exact String.append_left_inj ":"
      rw [hsame]
      exact List.count_singleton.symm
    | op | call | sys | data =>
      rw [if_neg]
      · rfl
      · rw [beq_iff_eq]
        exact render_ne_of_isIdent hx (by rintro l ⟨⟩)

end

theorem FlatLine.named (hg : g.Named fun x => Lexer.isIdent x.toList) (h : FlatLine g line) : line.Named := by
  cases h with
  | plain => exact fun l hl => (List.not_mem_nil hl).elim
  | pushInt | pushStr | onFrame | inData => exact fun l hl => by cases List.mem_singleton.mp hl
  | call h =>
    intro l hl
    cases List.mem_singleton.mp hl
    exact isName_of_isIdent (hg _ h)
  | library => trivial

theorem ProgramLine.named {before : Option Line} (hnames : NamesRead g fs) (h : ProgramLine g fs before line)
    : line.Named := by
  cases h with
  | space => exact fun l hl => by cases List.mem_singleton.mp hl
  | init | frame => exact fun l hl => by simp at hl
  | start h =>
    intro l hl
    cases List.mem_singleton.mp hl
    exact isName_of_isIdent (hnames.declared _ h)
  | body h =>
    cases h with
    | flat h => exact h.named hnames.declared
    | label => exact Label.readable_fresh _
    | jump =>
      intro l hl
      cases List.mem_singleton.mp hl
      exact Label.readable_fresh _
  | name h => exact isName_of_isIdent (hnames.defined _ _ _ _ h)

theorem labels_startCode (g : Globals) (n : Nat) :
    labels (Code.statements n (startCode g ++ [.op .jmp [.label (.named "main")]])) = [] := by
  rw [labels, List.filterMap_eq_nil_iff]
  intro s hs
  obtain ⟨i, line, hline, rfl⟩ := mem_statements hs
  have hmem := List.mem_iff_getElem?.mpr ⟨i, hline⟩
  simp only [startCode, List.mem_append, List.mem_map, List.mem_flatMap, List.mem_cons, List.not_mem_nil,
    or_false] at hmem
  rcases hmem with ((rfl | ⟨p, hp, rfl⟩) | ⟨p, hp, rfl | rfl | rfl | rfl⟩) | rfl
  all_goals rfl

end Labels

section Programs

variable {source text : String}

theorem count_lines_of_compile (h : compile source = .ok text)
    (hg : survey (Cursor.ofSource source) = .ok g) (hx : Lexer.isIdent x.toList)
    : (Text.lines text).count (x ++ ":") = (functions g.macros (Cursor.ofSource source)).countP (·.isNamed x) := by
  obtain ⟨g', hg', code, hemit, rfl⟩ := compile_eq_ok_iff.mp h
  cases hg.symm.trans hg'
  obtain ⟨hi, hcode⟩ := exists_composed hg hemit
  have hnamed : ∀ line ∈ startCode g ++ [.op .jmp [.label (.named "main")]] ++ code, line.Named := by
    intro line hline
    obtain ⟨i, hi⟩ := List.mem_iff_getElem?.mp hline
    obtain ⟨before, -, hprogram⟩ := (hcode.lines none).get hi
    exact hprogram.named (namesRead_of_emit hg hemit)
  rw [count_lines hx hnamed 1, labels_statements_append, labels_startCode, List.nil_append]
  exact count_labels_of_functions hx (survey_near hg) hemit

/--
The passes agree on the functions of a program: if every body belongs to the name that stands first in its declaration,
then a function has one line with its name if the survey found it defined, and none otherwise.
-/
theorem compile_labels (h : compile source = .ok text) (hg : survey (Cursor.ofSource source) = .ok g)
    (hfirst : ∀ d ∈ declarations source, d.function.defined → d.first) (x : String) (hx : Lexer.isIdent x.toList)
    : (Text.lines text).count (x ++ ":") = if (g.functions.lookup x).any (·.defined) then 1 else 0 := by
  obtain ⟨g', hg', code, hemit, -⟩ := compile_eq_ok_iff.mp h
  cases hg.symm.trans hg'
  obtain ⟨c', hsurveys⟩ := surveys_of_survey hg
  have hwalks := walks_of_topLevel (not_missing_of_emitFunctions hemit)
  have hdefines := hsurveys.agree (closed_ofSource source) hfirst hwalks (isSound_of_emitFunctions hemit)
  have hrecords := (survey_records hg).definitions x
  calc (Text.lines text).count (x ++ ":")
      = (functions g.macros (Cursor.ofSource source)).countP (·.isNamed x) := count_lines_of_compile h hg hx
    _ = definitionsOf x (declarations source) := countP_isNamed hdefines x
    _ = g.definitions x := (hrecords.trans (Nat.zero_add _)).symm

def mixedSource : String :=
  "#define N 2\nint a[N] = \x7b 1, 2 \x7d, b; int f(int x); ; " ++
    "int g() \x7b return f(b); \x7d int f(int x) \x7b return x + a[0]; \x7d void main() \x7b g(); \x7d"

theorem compile_labels_mixedSource :
    ∃ text g, compile mixedSource = .ok text ∧ survey (Cursor.ofSource mixedSource) = .ok g
      ∧ (∀ d ∈ declarations mixedSource, d.function.defined → d.first) ∧ Lexer.isIdent "f".toList
      ∧ (Text.lines text).count ("f" ++ ":") = if (g.functions.lookup "f").any (·.defined) then 1 else 0 := by
  obtain ⟨text, htext⟩ := Except.exists_eq_ok_of_isOk (x := compile mixedSource) (by decide +kernel)
  have hfirst : ∀ d ∈ declarations mixedSource, d.function.defined → d.first := by decide +kernel
  have hident : Lexer.isIdent "f".toList := by decide
  obtain ⟨g, hg, -⟩ := compile_eq_ok_iff.mp htext
  exact ⟨text, g, htext, hg, hfirst, hident, compile_labels htext hg hfirst "f" hident⟩

def hiddenSource : String :=
  "int a, f() \x7b return 1; \x7d ; void main() \x7b f(); \x7d"

/-- The walk skips a body that is not the first of its declaration, though the survey has found the function defined. -/
theorem compile_hiddenSource :
    ∃ text g, compile hiddenSource = .ok text ∧ survey (Cursor.ofSource hiddenSource) = .ok g
      ∧ (g.functions.lookup "f").any (·.defined) ∧ (Text.lines text).count ("f" ++ ":") = 0 := by
  obtain ⟨text, htext⟩ := Except.exists_eq_ok_of_isOk (x := compile hiddenSource) (by decide +kernel)
  have hfound : ∀ g ∈ (survey (Cursor.ofSource hiddenSource)).toOption, (g.functions.lookup "f").any (·.defined)
      ∧ (functions g.macros (Cursor.ofSource hiddenSource)).countP (·.isNamed "f") = 0 := by decide +kernel
  obtain ⟨g, hg, -⟩ := compile_eq_ok_iff.mp htext
  obtain ⟨hdefined, hcount⟩ := hfound g (by simp [hg, Except.toOption])
  have hlines := count_lines_of_compile htext hg (x := "f") (by decide)
  exact ⟨text, g, htext, hg, hdefined, hlines.trans hcount⟩

end Programs

end Handheld.Source
