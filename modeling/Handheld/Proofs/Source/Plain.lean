import Handheld.Proofs.Source.Flow
import Handheld.Proofs.Source.Cells

/-!
What emitting a plain statement leaves: the names known behind it, and the labels of the innermost `switch` as they were.
-/
namespace Handheld.Source

open Asm

variable {g : Globals} {b b1 b' : Body} {scope scope1 : Scope} {labels : Bool} {code : Code} {ctx : Context}

section Scope

variable {ls ls' : Locals} {span : Span}

theorem scopeOf_claim {size offset : Nat} (h : ls.claim size span = .ok (offset, ls')) :
    scopeOf g ls' = scopeOf g ls := by
  obtain ⟨-, heq⟩ := Locals.claim_eq_ok_iff.mp h
  cases heq
  rfl

theorem scopeOf_declare {x : String} {ty : Ty} {v : Var} (h : ls.declare x ty [] span = .ok (v, ls'))
    (hty : ty.pointer = 0)
    : scopeOf g ls' = (scopeOf g ls).declare x ty.base := by
  obtain ⟨w, rfl, -, -, heq⟩ := Locals.declare_eq_ok_iff.mp h
  cases heq
  funext y
  unfold scopeOf Scope.declare
  simp only [Table.lookup_insert, Function.update_apply]
  by_cases hy : y = x
  · simp [hy, Var.isNumber, hty]
  · simp only [if_neg hy]

end Scope

structure Emitted (g : Globals) (b : Body) (scope : Scope) (labels : Bool) (b' : Body) : Prop where
  scope : scopeOf g b'.locals = scope
  switch : labels = false → b'.switch = b.switch

theorem Emitted.of_onlyLabels (h : b.OnlyLabels b') : Emitted g b (scopeOf g b.locals) labels b' :=
  ⟨congrArg _ h.locals, fun _ => h.switch⟩

theorem Emitted.refl (b : Body) : Emitted g b (scopeOf g b.locals) labels b :=
  .of_onlyLabels (.refl b)

theorem Emitted.trans (h1 : Emitted g b scope1 labels b1) (h : Emitted g b1 scope labels b') :
    Emitted g b scope labels b' where
  scope := h.scope
  switch hlabels := (h.switch hlabels).trans (h1.switch hlabels)

theorem Emitted.skip {n : Nat} (h : Emitted g (b.skip n) scope labels b') : Emitted g b scope labels b' :=
  ⟨h.scope, h.switch⟩

theorem Declared.emitted {base : Base} {d : Declared} (hd : d.isPlain base (scopeOf g b.locals))
    (hcode : d.emit ctx base b = .ok (code, b'))
    : Emitted g b (d.behind base (scopeOf g b.locals)) false b' := by
  cases d with
  | plain d =>
    simp only [isPlain, Bool.and_eq_true, beq_iff_eq, List.isEmpty_iff] at hd
    obtain ⟨-, dims, hdims, v, ls1, hdeclare, heq⟩ := emit_plain_eq_ok_iff.mp hcode
    cases heq
    have hnil : dims = [] := by
      simpa [Declarator.extents, hd.2, pure, Except.pure] using hdims.symm
    subst hnil
    exact ⟨scopeOf_declare hdeclare hd.1, fun _ => rfl⟩
  | scalar d value =>
    simp only [isPlain, Bool.and_eq_true, beq_iff_eq] at hd
    obtain ⟨-, v, ls1, hdeclare, c, ty, b1, hload, heq⟩ := emit_scalar_eq_ok_iff.mp hcode
    cases heq
    have hkeeps := hload.onlyLabels
    have hscope : scopeOf g ls1 = (scopeOf g b.locals).declare d.name base := scopeOf_declare hdeclare hd.1
    exact ⟨(congrArg _ hkeeps.locals).trans hscope, fun _ => hkeeps.switch⟩
  | _ => simp [isPlain] at hd

theorem Declared.emitted_all {base : Base} {ds : List Declared} (hds : arePlain base (scopeOf g b.locals) ds)
    (hcode : emitDeclared ctx base ds b = .ok (code, b'))
    : Emitted g b (behindAll base (scopeOf g b.locals) ds) false b' := by
  induction ds generalizing b code with
  | nil =>
    cases hcode
    exact .refl _
  | cons d ds ih =>
    rw [arePlain, Bool.and_eq_true] at hds
    obtain ⟨code1, b1, h1, code2, b2, h2, heq⟩ := emitDeclared_cons_eq_ok_iff.mp hcode
    cases heq
    have hd := d.emitted hds.1 h1
    have hrest := ih (by rw [hd.scope]; exact hds.2) h2
    rw [hd.scope] at hrest
    exact hd.trans hrest

theorem Emitted.label {s : Stmt} (hs : s.isLabel) (h : s.emit ctx b = .ok (code, b')) :
    Emitted g b (scopeOf g b.locals) true b' := by
  cases s.emits h with
  | case | default => exact ⟨rfl, nofun⟩
  | _ => cases hs

theorem Stmt.behind_of_isLabel {s : Stmt} (hs : s.isLabel) (scope : Scope) : s.behind scope = scope := by
  cases s with
  | case | default => rw [Stmt.behind] <;> nofun
  | _ => cases hs

mutual

theorem Stmt.emitted : (s : Stmt) → ∀ {ctx : Context} {b : Body} {code : Code} {b' : Body},
    s.emit ctx b = .ok (code, b') → s.isPlain (scopeOf g b.locals) →
      Emitted g b (s.behind (scopeOf g b.locals)) false b'
  | .block ss => by
    intro h hplain
    rw [Stmt.emit] at h
    rw [Stmt.isPlain] at hplain
    exact Stmt.emitted_all ss h hplain
  | .ifThen opened cond yes => by
    intro h hplain
    rw [Stmt.isPlain, Bool.and_eq_true] at hplain
    cases Stmt.emits _ h with
    | ifThen hcond hyes =>
      have h1 : Emitted g _ _ false _ := .of_onlyLabels hcond.onlyLabels
      have h2 := yes.emitted hyes (by rw [Body.skip, h1.scope]; exact hplain.2)
      rw [Body.skip, h1.scope] at h2
      rw [Stmt.behind]
      exact h1.trans h2.skip
  | .ifElse opened cond yes no => by
    intro h hplain
    rw [Stmt.isPlain, Bool.and_eq_true, Bool.and_eq_true] at hplain
    cases Stmt.emits _ h with
    | ifElse hcond hyes hno =>
      have h1 : Emitted g _ _ false _ := .of_onlyLabels hcond.onlyLabels
      have h2 := yes.emitted hyes (by rw [Body.skip, h1.scope]; exact hplain.1.2)
      rw [Body.skip, h1.scope] at h2
      have h3 := no.emitted hno (by rw [Body.skip, h2.scope]; exact hplain.2)
      rw [Body.skip, h2.scope] at h3
      rw [Stmt.behind]
      exact (h1.trans h2.skip).trans h3.skip
  | .whileLoop opened cond body => by
    intro h hplain
    rw [Stmt.isPlain, Bool.and_eq_true] at hplain
    cases Stmt.emits _ h with
    | whileLoop hcond hbody =>
      have h1 : Emitted g _ _ false _ := .of_onlyLabels hcond.onlyLabels.skip
      have h2 := body.emitted hbody (by rw [h1.scope]; exact hplain.2)
      rw [h1.scope] at h2
      rw [Stmt.behind]
      exact h1.trans h2
  | .doLoop body opened cond => by
    intro h hplain
    rw [Stmt.isPlain, Bool.and_eq_true] at hplain
    cases Stmt.emits _ h with
    | doLoop hbody _ hcond =>
      have h1 := body.emitted hbody hplain.1
      have h2 : Emitted g _ _ false _ := .of_onlyLabels hcond.onlyLabels
      rw [h1.scope] at h2
      rw [Stmt.behind]
      exact (h1.trans h2).skip
  | .forLoop opened init cond step body => by
    intro h hplain
    rw [Stmt.isPlain, Bool.and_eq_true, Bool.and_eq_true, Bool.and_eq_true] at hplain
    cases Stmt.emits _ h with
    | forLoop hinit htest hstep hbody =>
      have h1 := init.emitted hinit hplain.1.1.1
      have h2 : Emitted g _ _ false _ := .of_onlyLabels (htest.onlyLabels.trans hstep.onlyLabels).skip
      rw [h1.scope] at h2
      have h3 := body.emitted hbody (by rw [h2.scope]; exact hplain.2)
      rw [h2.scope] at h3
      rw [Stmt.behind]
      exact (h1.trans h2).trans h3
  | .switch span opened cond body => by
    intro h hplain
    cases body with
    | block ss =>
      rw [Stmt.isPlain, Bool.and_eq_true] at hplain
      cases Stmt.emits _ h with
      | switch htemp hcond hbody =>
        rw [Stmt.emit] at hbody
        have hscope := (congrArg (scopeOf g) hcond.onlyLabels.locals).trans (scopeOf_claim htemp)
        have h2 := Stmt.emitted_all ss hbody (by rw [Body.skip, hscope]; exact hplain.2)
        rw [Body.skip, hscope] at h2
        rw [Stmt.behind, Stmt.behind]
        exact ⟨h2.scope, fun _ => hcond.onlyLabels.switch⟩
    | _ => cases hplain
  | .declare base ds => by
    intro h hplain
    rw [Stmt.emit] at h
    rw [Stmt.isPlain] at hplain
    exact Declared.emitted_all hplain h
  | .expr e => by
    intro h _
    rw [Stmt.emit] at h
    exact .of_onlyLabels (onlyLabels_effect h)
  | .missing _ | .cut _ _ => fun h _ => nomatch Stmt.emits _ h
  | .case _ _ | .default _ => fun _ h => by simp [Stmt.isPlain] at h
  | .empty | .breakOut _ | .goOn _ => by
    intro h _
    cases Stmt.emits _ h
    exact .refl _
  | .ret span value => by
    intro h _
    cases Stmt.emits _ h with
    | ret => exact .refl _
    | retEffect _ h => exact .of_onlyLabels (onlyLabels_effect h)
    | retValue _ h => exact .of_onlyLabels h.onlyLabels

theorem Stmt.emitted_all : (ss : List Stmt) → ∀ {ctx : Context} {b : Body} {code : Code} {b' : Body} {labels : Bool},
    Stmt.emitAll ctx ss b = .ok (code, b') → Stmt.arePlain labels (scopeOf g b.locals) ss →
      Emitted g b (Stmt.behindAll (scopeOf g b.locals) ss) labels b'
  | [], ctx, b, code, b', labels, h, _ => by
    cases Stmt.emitAll_nil_eq_ok_iff.mp h
    exact .refl b
  | s :: ss, ctx, b, code, b', labels, h, hplain => by
    rw [Stmt.arePlain, Bool.and_eq_true, Bool.or_eq_true, Bool.and_eq_true] at hplain
    obtain ⟨c1, b1, h1, _, _, h2, heq⟩ := Stmt.emitAll_cons_eq_ok_iff.mp h
    cases heq
    have hs : Emitted g b (s.behind (scopeOf g b.locals)) labels b1 := by
      rcases hplain.1 with hs | ⟨rfl, hs⟩
      · have hemitted := s.emitted h1 hs
        exact ⟨hemitted.scope, fun _ => hemitted.switch rfl⟩
      · rw [Stmt.behind_of_isLabel hs]
        exact .label hs h1
    have hss := Stmt.emitted_all ss h2 (by rw [hs.scope]; exact hplain.2)
    rw [hs.scope] at hss
    exact hs.trans hss

end

end Handheld.Source
