import Handheld.Proofs.Source.Emission

/-!
Emission of statements as a relation, by which proofs about code go by induction.
-/
namespace Handheld.Source

open Asm

namespace Stmt

attribute [local simp] Stmt.emit

def Tests (ctx : Context) (opened : Span) (cond : Option Expr) (stop : Label) (b : Body) (code : Code)
    (b' : Body) : Prop :=
  match cond with
  | some cond => ∃ c ty, cond.Loads ctx opened b c ty b' ∧ code = c ++ [.op .jz [.label stop]]
  | none => code = [] ∧ b' = b

def Steps (ctx : Context) (step : Option Expr) (b : Body) (code : Code) (b' : Body) : Prop :=
  match step with
  | some step => step.emitEffect ctx b = .ok (code, b')
  | none => code = [] ∧ b' = b

inductive Emits : Context → Body → Stmt → Code → Body → Prop where
  | empty {ctx b} : Emits ctx b .empty [] b
  | nil {ctx b} : Emits ctx b (.block []) [] b
  | cons {ctx b s ss c1 b1 c2 b'} (h1 : s.emit ctx b = .ok (c1, b1)) (h2 : emitAll ctx ss b1 = .ok (c2, b'))
    (hs : Emits ctx b s c1 b1) (hss : Emits ctx b1 (.block ss) c2 b') : Emits ctx b (.block (s :: ss)) (c1 ++ c2) b'
  | expr {ctx b e code b'} (h : e.emitEffect ctx b = .ok (code, b')) : Emits ctx b (.expr e) code b'
  | declare {ctx b base ds code b'} (h : emitDeclared ctx base ds b = .ok (code, b')) :
    Emits ctx b (.declare base ds) code b'
  | ifThen {ctx b opened cond yes t ty b1 y b'} (hcond : cond.Loads ctx opened b t ty b1)
    (h : yes.emit ctx (b1.skip 1) = .ok (y, b')) (hyes : Emits ctx (b1.skip 1) yes y b') :
    Emits ctx b (.ifThen opened cond yes)
      (t ++ [.op .jz [.label (.fresh (b1.labels + 1))]] ++ y ++ [.label (.fresh (b1.labels + 1))]) b'
  | ifElse {ctx b opened cond yes no t ty b1 y b2 n b'} (hcond : cond.Loads ctx opened b t ty b1)
    (h1 : yes.emit ctx (b1.skip 1) = .ok (y, b2)) (h2 : no.emit ctx (b2.skip 1) = .ok (n, b'))
    (hyes : Emits ctx (b1.skip 1) yes y b2) (hno : Emits ctx (b2.skip 1) no n b') :
    Emits ctx b (.ifElse opened cond yes no)
      (t ++ [.op .jz [.label (.fresh (b1.labels + 1))]] ++ y
        ++ [.op .jmp [.label (.fresh (b2.labels + 1))], .label (.fresh (b1.labels + 1))] ++ n
        ++ [.label (.fresh (b2.labels + 1))]) b'
  | whileLoop {ctx b opened cond body t ty b1 c b'} (hcond : cond.Loads ctx opened (b.skip 2) t ty b1)
    (h : body.emit { ctx with exit := some (.fresh (b.labels + 2)), next := some (.fresh (b.labels + 1)) } b1
      = .ok (c, b'))
    (hbody : Emits { ctx with exit := some (.fresh (b.labels + 2)), next := some (.fresh (b.labels + 1)) } b1 body c b') :
    Emits ctx b (.whileLoop opened cond body)
      ([.label (.fresh (b.labels + 1))] ++ t ++ [.op .jz [.label (.fresh (b.labels + 2))]] ++ c
        ++ [.op .jmp [.label (.fresh (b.labels + 1))], .label (.fresh (b.labels + 2))]) b'
  | doLoop {ctx b opened cond body c b1 t ty b'}
    (h : body.emit { ctx with exit := some (.fresh (b.labels + 3)), next := some (.fresh (b.labels + 2)) } (b.skip 3)
      = .ok (c, b1))
    (hbody : Emits { ctx with exit := some (.fresh (b.labels + 3)), next := some (.fresh (b.labels + 2)) } (b.skip 3)
      body c b1)
    (hcond : cond.Loads ctx opened b1 t ty b') :
    Emits ctx b (.doLoop body opened cond)
      ([.label (.fresh (b.labels + 1))] ++ c ++ [.label (.fresh (b.labels + 2))] ++ t
        ++ [.op .jnz [.label (.fresh (b.labels + 1))], .label (.fresh (b.labels + 3))]) b'
  | forLoop {ctx b opened init cond step body i b1 t b2 n b3 c b'} (h1 : init.emit ctx b = .ok (i, b1))
    (htest : Tests ctx opened cond (.fresh (b1.labels + 3)) (b1.skip 3) t b2) (hstep : Steps ctx step b2 n b3)
    (h2 : body.emit { ctx with exit := some (.fresh (b1.labels + 3)), next := some (.fresh (b1.labels + 2)) } b3
      = .ok (c, b'))
    (hinit : Emits ctx b init i b1)
    (hbody : Emits { ctx with exit := some (.fresh (b1.labels + 3)), next := some (.fresh (b1.labels + 2)) } b3
      body c b') :
    Emits ctx b (.forLoop opened init cond step body)
      (i ++ [.label (.fresh (b1.labels + 1))] ++ t ++ c ++ [.label (.fresh (b1.labels + 2))] ++ n
        ++ [.op .jmp [.label (.fresh (b1.labels + 1))], .label (.fresh (b1.labels + 3))]) b'
  | switch {ctx b span opened cond body temp ls t ty b1 c b2} (htemp : b.locals.claim 4 span = .ok (temp, ls))
    (hcond : cond.Loads ctx opened { b with locals := ls } t ty b1)
    (h : body.emit { ctx with exit := some (.fresh (b1.labels + 2)) } { b1.skip 2 with switch := some {} }
      = .ok (c, b2))
    (hbody : Emits { ctx with exit := some (.fresh (b1.labels + 2)) } { b1.skip 2 with switch := some {} } body c b2) :
    Emits ctx b (.switch span opened cond body)
      ([.op (.access .handle .dword true) [.int temp]] ++ t ++
        [.op .store, .op .pop, .op .jmp [.label (.fresh (b1.labels + 1))]] ++ c ++
        [.op .jmp [.label (.fresh (b1.labels + 2))], .label (.fresh (b1.labels + 1))] ++
        dispatchCode temp (b2.switch.getD {}) (.fresh (b1.labels + 2))) { b2 with switch := b1.switch }
  | case {ctx b span value sw} (hsw : b.switch = some sw) (hnew : sw.cases.any (·.1 == value) = false) :
    Emits ctx b (.case span value) [.label (.fresh (b.labels + 1))]
      { b.skip 1 with switch := some { sw with cases := sw.cases ++ [(value, .fresh (b.labels + 1))] } }
  | default {ctx b span sw} (hsw : b.switch = some sw) (hnew : sw.default = none) :
    Emits ctx b (.default span) [.label (.fresh (b.labels + 1))]
      { b.skip 1 with switch := some { sw with default := some (.fresh (b.labels + 1)) } }
  | breakOut {ctx b span l} (h : ctx.exit = some l) : Emits ctx b (.breakOut span) [.op .jmp [.label l]] b
  | goOn {ctx b span l} (h : ctx.next = some l) : Emits ctx b (.goOn span) [.op .jmp [.label l]] b
  | ret {ctx b span} : Emits ctx b (.ret span none) (epilogue ctx) b
  | retEffect {ctx b span e code b'} (hnone : ctx.main || ctx.ret.isVoid) (h : e.emitEffect ctx b = .ok (code, b')) :
    Emits ctx b (.ret span (some e)) (code ++ epilogue ctx) b'
  | retValue {ctx b span e code ty b'} (hsome : (ctx.main || ctx.ret.isVoid) = false)
    (h : e.Loads ctx span b code ty b') : Emits ctx b (.ret span (some e)) (code ++ [.op .ret]) b'

variable {ctx : Context} {s : Stmt} {b : Body} {r : Code × Body}

theorem emit_bind_eq_ok_iff {α : Type} {f : Code → Emit α} {r : α × Body} :
    (s.emit ctx >>= f) b = .ok r ↔ ∃ code b1, s.emit ctx b = .ok (code, b1) ∧ f code b1 = .ok r :=
  Emit.bind_eq_ok_iff

theorem emitAll_nil_eq_ok_iff : Stmt.emitAll ctx [] b = .ok r ↔ ([], b) = r := by
  simp only [Stmt.emitAll, Emit.pure_eq_ok_iff]

theorem emitAll_cons_eq_ok_iff {ss : List Stmt} :
    Stmt.emitAll ctx (s :: ss) b = .ok r
      ↔ ∃ code1 b1, s.emit ctx b = .ok (code1, b1)
        ∧ ∃ code2 b2, Stmt.emitAll ctx ss b1 = .ok (code2, b2) ∧ (code1 ++ code2, b2) = r := by
  simp only [Stmt.emitAll, Emit.bind_eq_ok_iff, Emit.pure_eq_ok_iff]

theorem exists_pair_eq {c : Code} {P : Code → Body → Prop} : (∃ t b2, (t = c ∧ b2 = b) ∧ P t b2) ↔ P c b := by
  grind

theorem exists_test_eq {stop : Code} {Q : Code → Ty → Body → Prop} {P : Code → Body → Prop} :
    (∃ t b2, (∃ c ty, Q c ty b2 ∧ t = c ++ stop) ∧ P t b2)
      ↔ ∃ c ty b2, Q c ty b2 ∧ P (c ++ stop) b2 := by
  grind

theorem emit_forLoop_eq_ok_iff {opened : Span} {init body : Stmt} {cond step : Option Expr} :
    (Stmt.forLoop opened init cond step body).emit ctx b = .ok r
      ↔ ∃ i b1, init.emit ctx b = .ok (i, b1)
        ∧ ∃ t b2, Tests ctx opened cond (.fresh (b1.labels + 3)) (b1.skip 3) t b2
          ∧ ∃ n b3, Steps ctx step b2 n b3
            ∧ ∃ c b4, body.emit { ctx with
                  exit := some (.fresh (b1.labels + 3)), next := some (.fresh (b1.labels + 2)) } b3
                = .ok (c, b4)
              ∧ (i ++ [.label (.fresh (b1.labels + 1))] ++ t ++ c ++ [.label (.fresh (b1.labels + 2))]
                  ++ n ++ [.op .jmp [.label (.fresh (b1.labels + 1))],
                    .label (.fresh (b1.labels + 3))], b4) = r := by
  simp only [Stmt.emit, Emit.fresh_bind_eq_ok_iff, emit_bind_eq_ok_iff]
  refine exists_congr fun i => exists_congr fun b1 => and_congr_right fun _ => ?_
  cases cond with
  | none =>
    simp only [pure_bind, Tests, exists_pair_eq]
    cases step with
    | none =>
      simp only [Steps, exists_pair_eq, emit_bind_eq_ok_iff, Emit.pure_eq_ok_iff]
      rfl
    | some step =>
      rw [Emit.bind_eq_ok_iff]
      simp only [Steps, emit_bind_eq_ok_iff, Emit.pure_eq_ok_iff]
      rfl
  | some cond =>
    simp only [pure_bind, Tests, Expr.emitValue_bind_eq_ok_iff, exists_test_eq]
    refine exists_congr fun c => exists_congr fun ty => exists_congr fun b2 =>
      and_congr Iff.rfl ?_
    cases step with
    | none =>
      simp only [Steps, exists_pair_eq, emit_bind_eq_ok_iff, Emit.pure_eq_ok_iff]
      rfl
    | some step =>
      rw [Emit.bind_eq_ok_iff]
      simp only [Steps, emit_bind_eq_ok_iff, Emit.pure_eq_ok_iff]
      rfl

mutual

theorem emits : (s : Stmt) → ∀ {ctx : Context} {b : Body} {code : Code} {b' : Body},
    s.emit ctx b = .ok (code, b') → Emits ctx b s code b'
  | .missing _, _, _, _, _, h => by simp only [Stmt.emit, Emit.fail_eq_ok_iff] at h
  | .cut _ _, _, _, _, _, h => by
    simp only [Stmt.emit, emit_bind_eq_ok_iff, Emit.fail_eq_ok_iff, and_false, exists_false] at h
  | .empty, _, _, _, _, h => by
    simp only [Stmt.emit, Emit.pure_eq_ok_iff] at h
    cases h
    exact .empty
  | .block ss, _, _, _, _, h => by
    rw [Stmt.emit] at h
    exact emits_all ss h
  | .expr e, _, _, _, _, h => by
    rw [Stmt.emit] at h
    exact .expr h
  | .declare base ds, _, _, _, _, h => by
    rw [Stmt.emit] at h
    exact .declare h
  | .ifThen opened cond yes, _, _, _, _, h => by
    simp only [Stmt.emit, Expr.emitValue_bind_eq_ok_iff, Emit.fresh_bind_eq_ok_iff, emit_bind_eq_ok_iff,
      Emit.pure_eq_ok_iff] at h
    obtain ⟨t, ty, b1, hcond, y, b2, hyes, heq⟩ := h
    cases heq
    exact .ifThen hcond hyes (yes.emits hyes)
  | .ifElse opened cond yes no, _, _, _, _, h => by
    simp only [Stmt.emit, Expr.emitValue_bind_eq_ok_iff, Emit.fresh_bind_eq_ok_iff, emit_bind_eq_ok_iff,
      Emit.pure_eq_ok_iff] at h
    obtain ⟨t, ty, b1, hcond, y, b2, hyes, n, b3, hno, heq⟩ := h
    cases heq
    exact .ifElse hcond hyes hno (yes.emits hyes) (no.emits hno)
  | .whileLoop opened cond body, _, _, _, _, h => by
    simp only [Stmt.emit, Expr.emitValue_bind_eq_ok_iff, Emit.fresh_bind_eq_ok_iff, emit_bind_eq_ok_iff,
      Emit.pure_eq_ok_iff] at h
    obtain ⟨t, ty, b1, hcond, c, b2, hbody, heq⟩ := h
    cases heq
    exact .whileLoop hcond hbody (body.emits hbody)
  | .doLoop body opened cond, _, _, _, _, h => by
    simp only [Stmt.emit, Expr.emitValue_bind_eq_ok_iff, Emit.fresh_bind_eq_ok_iff, emit_bind_eq_ok_iff,
      Emit.pure_eq_ok_iff] at h
    obtain ⟨c, b1, hbody, t, ty, b2, hcond, heq⟩ := h
    cases heq
    exact .doLoop hbody (body.emits hbody) hcond
  | .forLoop opened init cond step body, _, _, _, _, h => by
    obtain ⟨i, b1, hinit, t, b2, htest, n, b3, hstep, c, b4, hbody, heq⟩ := emit_forLoop_eq_ok_iff.mp h
    cases heq
    exact .forLoop hinit htest hstep hbody (init.emits hinit) (body.emits hbody)
  | .switch span opened cond body, _, _, _, _, h => by
    simp only [Stmt.emit, Emit.onLocals_bind_eq_ok_iff, Expr.emitValue_bind_eq_ok_iff, Emit.fresh_bind_eq_ok_iff,
      Emit.get_bind_eq_ok_iff, Emit.modify_bind_eq_ok_iff, emit_bind_eq_ok_iff, Emit.pure_eq_ok_iff] at h
    obtain ⟨temp, ls, htemp, t, ty, b1, hcond, c, b2, hbody, heq⟩ := h
    cases heq
    exact .switch htemp hcond hbody (body.emits hbody)
  | .case span value, _, b, _, _, h => by
    simp only [Stmt.emit, addCase, Emit.fresh_bind_eq_ok_iff, Emit.get_bind_eq_ok_iff] at h
    cases hsw : (b.skip 1).switch with
    | none => simp [hsw, Emit.fail_eq_ok_iff] at h
    | some sw =>
      simp only [hsw, Emit.ite_fail_eq_ok_iff, Emit.set_bind_eq_ok_iff, Emit.pure_eq_ok_iff, Bool.not_eq_true] at h
      cases h.2
      exact .case hsw h.1
  | .default span, _, b, _, _, h => by
    simp only [Stmt.emit, addDefault, Emit.fresh_bind_eq_ok_iff, Emit.get_bind_eq_ok_iff] at h
    cases hsw : (b.skip 1).switch with
    | none => simp [hsw, Emit.fail_eq_ok_iff] at h
    | some sw =>
      simp only [hsw, Emit.ite_fail_eq_ok_iff, Emit.set_bind_eq_ok_iff, Emit.pure_eq_ok_iff,
        Option.not_isSome_iff_eq_none] at h
      cases h.2
      exact .default hsw h.1
  | .breakOut span, ctx, _, _, _, h => by
    simp only [Stmt.emit, jumpCode] at h
    cases hexit : ctx.exit with
    | none => simp [hexit, Emit.fail_eq_ok_iff] at h
    | some l =>
      simp only [hexit, Emit.pure_eq_ok_iff] at h
      cases h
      exact .breakOut hexit
  | .goOn span, ctx, _, _, _, h => by
    simp only [Stmt.emit, jumpCode] at h
    cases hnext : ctx.next with
    | none => simp [hnext, Emit.fail_eq_ok_iff] at h
    | some l =>
      simp only [hnext, Emit.pure_eq_ok_iff] at h
      cases h
      exact .goOn hnext
  | .ret span none, _, _, _, _, h => by
    simp only [Stmt.emit, Emit.pure_eq_ok_iff] at h
    cases h
    exact .ret
  | .ret span (some e), ctx, _, _, _, h => by
    simp only [Stmt.emit] at h
    split at h
    next hnone =>
      simp only [Emit.bind_eq_ok_iff, Emit.pure_eq_ok_iff] at h
      obtain ⟨code, b1, heffect, heq⟩ := h
      cases heq
      exact .retEffect hnone heffect
    next hsome =>
      simp only [Expr.emitValue_bind_eq_ok_iff, Emit.pure_eq_ok_iff] at h
      obtain ⟨code, ty, b1, hvalue, heq⟩ := h
      cases heq
      exact .retValue (Bool.not_eq_true _ ▸ hsome) hvalue

theorem emits_all : (ss : List Stmt) → ∀ {ctx : Context} {b : Body} {code : Code} {b' : Body},
    emitAll ctx ss b = .ok (code, b') → Emits ctx b (.block ss) code b'
  | [], _, _, _, _, h => by
    cases emitAll_nil_eq_ok_iff.mp h
    exact .nil
  | s :: ss, _, _, _, _, h => by
    obtain ⟨c1, b1, h1, c2, b2, h2, heq⟩ := emitAll_cons_eq_ok_iff.mp h
    cases heq
    exact .cons h1 h2 (s.emits h1) (emits_all ss h2)

end

end Stmt

end Handheld.Source
