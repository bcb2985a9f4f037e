import Handheld.Proofs.Source.Activation

/-!
The code of an expression over numbers computes its value and makes its assignments.
-/
namespace Handheld.Source

open Asm

theorem Expr.eval_of_target? {scope : Scope} {e : Expr} {x : String} {n : Number}
    (htarget : e.target? = some x) (hn : scope x = some n) (σ : Store)
    : (e.eval scope σ).1 = n.fit ((e.eval scope σ).2 n.cell) := by
  fun_induction Expr.target? e generalizing σ with
  | case1 y span =>
    cases htarget
    simp [Expr.eval, hn]
  | case2 left right ih =>
    simp only [Expr.eval]
    exact ih htarget _
  | case3 => cases htarget

structure Activation.Holds (A : Activation) (scope : Scope) (x : String) (n : Number) (v : Var) :
    Prop where
  scope : scope x = some n
  var : n.cell.var? A.g A.ls = some v
  base : n.base = v.ty.base

def Place.Numeric (A : Activation) (scope : Scope) (target : Option String) : Place → Prop
  | .value ty => ty.isPointer = false
  | .var v => ∃ x n, target = some x ∧ A.Holds scope x n v
  | _ => False

def Place.pile : Place → Int32 → List Int32 → List Int32
  | .value _, n, stack => n :: stack
  | _, _, stack => stack

def Expr.Sound (A : Activation) (ctx : Context) (ls : Locals) (e : Expr) : Prop :=
  ∀ b r, b.locals = ls → e.emit ctx b = .ok r →
    r.1.2.Numeric A (scopeOf A.g ls) e.target?
      ∧ ∀ stack σ, stack.length + e.height ≤ A.m.stack.limit →
        A.Does r.1.1 (stack, σ)
          (r.1.2.pile (e.eval (scopeOf A.g ls) σ).1 stack, (e.eval (scopeOf A.g ls) σ).2)

namespace Activation.Holds

variable {A : Activation} {scope : Scope} {x : String} {n : Number} {v : Var}

section

variable (h : A.Holds scope x n v)

include h

theorem number : v.isNumber :=
  (A.placed.within h.var).number

theorem normalize (k : Int32) : v.ty.width.normalize k = n.fit k :=
  (Number.fit_eq_normalize h.number h.base k).symm

theorem not_isPointer : v.ty.isPointer = false := by
  have hnumber := h.number
  simp only [Var.isNumber, beq_iff_eq, Bool.and_eq_true] at hnumber
  simp [Ty.isPointer, hnumber.2]

theorem not_isArray : v.isArray = false := by
  have hnumber := h.number
  simp only [Var.isNumber, Bool.and_eq_true] at hnumber
  simp [Var.isArray, hnumber.1]

theorem assign (k : Int32) (σ : Store) :
    scope.assign (some x) k σ
      =
    (v.ty.width.normalize k, Function.update σ n.cell (v.ty.width.normalize k)) := by
  simp [Scope.assign, h.scope, h.normalize]

end

end Activation.Holds

namespace Expr

variable {A : Activation} {ctx : Context} {ls : Locals} {span : Span} {b b' : Body} {code : Code} {ty : Ty}
  {e left right : Expr}

theorem Sound.loads (h : e.Sound A ctx ls) (hcode : e.Loads ctx span b code ty b') (hb : b.locals = ls)
    : ty.isPointer = false
        ∧ ∀ stack σ, stack.length + e.height ≤ A.m.stack.limit →
          A.Does code (stack, σ)
            ((e.eval (scopeOf A.g ls) σ).1 :: stack, (e.eval (scopeOf A.g ls) σ).2) := by
  obtain ⟨c, p, c', hemit, hload, rfl⟩ := hcode
  obtain ⟨hplace, hdoes⟩ := h b _ hb hemit
  cases p with
  | value ty' =>
    cases hload
    refine ⟨hplace, fun stack σ hroom => ?_⟩
    rw [List.append_nil]
    exact hdoes stack σ hroom
  | var v =>
    obtain ⟨x, n, htarget, hholds⟩ := hplace
    simp only [Place.load, hholds.not_isArray, Bool.false_eq_true, if_false, Except.ok.injEq,
      Prod.mk.injEq] at hload
    obtain ⟨rfl, rfl⟩ := hload
    constructor
    · simp [Var.valueTy, hholds.not_isArray, hholds.not_isPointer]
    · intro stack σ hroom
      refine (hdoes stack σ hroom).append ?_
      rw [eval_of_target? htarget hholds.scope, ← hholds.normalize]
      have hpos := e.height_pos
      exact Activation.does_varLoad hholds.var (by simp only [Place.pile]; omega)
  | void => exact hplace.elim
  | element v n => exact hplace.elim
  | deref ty => exact hplace.elim

theorem Sound.handles (h : e.Sound A ctx ls) (hcode : e.Handles ctx span b code ty b') (hb : b.locals = ls)
    : ∃ x n v, e.target? = some x ∧ A.Holds (scopeOf A.g ls) x n v ∧ ty = v.ty
        ∧ ∀ stack σ, stack.length + e.height ≤ A.m.stack.limit →
          A.Does code (stack, σ) (v.handle.encode :: stack, (e.eval (scopeOf A.g ls) σ).2) := by
  obtain ⟨c, p, c', hemit, hhandle, rfl⟩ := hcode
  obtain ⟨hplace, hdoes⟩ := h b _ hb hemit
  cases p with
  | var v =>
    obtain ⟨x, n, htarget, hholds⟩ := hplace
    simp only [Place.handle, hholds.not_isArray, Bool.false_eq_true, if_false, Except.ok.injEq,
      Prod.mk.injEq] at hhandle
    obtain ⟨rfl, rfl⟩ := hhandle
    refine ⟨x, n, v, htarget, hholds, rfl, fun stack σ hroom => ?_⟩
    have hpos := e.height_pos
    exact (hdoes stack σ hroom).append
      (Activation.does_handle hholds.var (by simp only [Place.pile]; omega))
  | value ty => cases hhandle
  | void => cases hhandle
  | element v n => exact hplace.elim
  | deref ty => exact hplace.elim

theorem sound_num (n : Int32) : (Expr.num n).Sound A ctx ls := by
  intro b r hb h
  cases emit_num_eq_ok_iff.mp h
  refine ⟨rfl, fun stack σ hroom => ?_⟩
  have hpos := (Expr.num n).height_pos
  exact Walk.does_pushInt (show _ < A.m.stack.limit by omega) n

theorem sound_name {x : String} (hg : ctx.globals = A.g) (hgrows : ls.Grows A.ls) (hx : (scopeOf A.g ls x).isSome)
    : (Expr.name x span).Sound A ctx ls := by
  intro b r hb h
  obtain ⟨v, hv, rfl⟩ := emit_name_eq_ok_iff.mp h
  obtain ⟨n, hn⟩ := Option.isSome_iff_exists.mp hx
  rw [Context.var?, hg, hb] at hv
  obtain ⟨hvar, hbase⟩ := cell_var?_of_scopeOf hn hv hgrows
  refine ⟨⟨x, n, rfl, hn, hvar, hbase⟩, fun stack σ _ => ?_⟩
  simp only [eval, hn, Place.pile]
  exact .nil _

theorem Sound.unary (he : e.Sound A ctx ls) (hcode : e.Loads ctx span b code ty b')
    (hb : b.locals = ls) {code' : Code} {f : Int32 → Int32}
    (h : ∀ a stack σ, stack.length < A.m.stack.limit → A.Does code' (a :: stack, σ) (f a :: stack, σ))
    (stack : List Int32) (σ : Store) (hroom : stack.length + e.height ≤ A.m.stack.limit)
    : A.Does (code ++ code') (stack, σ)
        (f (e.eval (scopeOf A.g ls) σ).1 :: stack, (e.eval (scopeOf A.g ls) σ).2) := by
  have hpos := e.height_pos
  exact ((he.loads hcode hb).2 stack σ hroom).append (h _ _ _ (by omega))

theorem sound_unary {op : Unary} (hop : op.isNumeric) (he : e.Sound A ctx ls) :
    (Expr.unary op span e).Sound A ctx ls := by
  intro b r hb h
  obtain ⟨_, _, _, hcode, rfl⟩ := (emit_unary_eq_ok_iff (by rintro rfl; cases hop)).mp h
  simp only [height, eval]
  cases op with
  | neg =>
    simp only [Unary.meaning, ← neg_eq_ofInt]
    exact ⟨rfl, he.unary hcode hb fun _ _ _ hroom => Walk.does_neg hroom⟩
  | not =>
    simp only [Unary.meaning, ← lnot_eq_ofInt]
    exact ⟨rfl, he.unary hcode hb fun _ _ _ hroom => Walk.does_lnot hroom⟩
  | complement =>
    simp only [Unary.meaning, ← not_eq_ofInt]
    exact ⟨rfl, he.unary hcode hb fun _ _ _ hroom => Walk.does_not hroom⟩
  | plus =>
    simp only [Unary.meaning, Int32.ofInt_toInt, Unary.code, List.append_nil]
    exact he.loads hcode hb
  | deref => cases hop
  | address => cases hop

theorem arithmetic_of_not_isPointer (op : Binary) {ty1 ty2 : Ty} (h : ty1.isPointer = false) :
    arithmetic op ty1 ty2 = ([.op (.binary op)], .number) := by
  simp [arithmetic, h]

theorem sound_binary {op : Binary} (hleft : left.Sound A ctx ls) (hright : right.Sound A ctx ls) :
    (Expr.binary op span left right).Sound A ctx ls := by
  intro b r hb h
  obtain ⟨code1, ty1, b1, h1, code2, ty2, b2, h2, rfl⟩ := emit_binary_eq_ok_iff.mp h
  have hb1 := h1.onlyLabels.locals.trans hb
  obtain ⟨hty, hdoes1⟩ := hleft.loads h1 hb
  obtain ⟨-, hdoes2⟩ := hright.loads h2 hb1
  rw [arithmetic_of_not_isPointer op hty]
  refine ⟨rfl, fun stack σ hroom => ?_⟩
  simp only [eval, ← Binary.apply_eq_meaning]
  rw [height] at hroom
  have hpos := right.height_pos
  refine ((hdoes1 stack σ (by omega)).append (hdoes2 _ _ ?_)).append (Walk.does_binary ?_ op)
  · rw [List.length_cons]
    omega
  · exact show _ < A.m.stack.limit by omega

theorem sound_logic {both : Bool} (hleft : left.Sound A ctx ls) (hright : right.Sound A ctx ls) :
    (Expr.logic both span left right).Sound A ctx ls := by
  intro b r hb h
  obtain ⟨code1, ty1, b1, h1, code2, ty2, b2, h2, rfl⟩ := emit_logic_eq_ok_iff.mp h
  have hb1 := h1.onlyLabels.locals.trans hb
  obtain ⟨-, hdoes1⟩ := hleft.loads h1 hb
  obtain ⟨-, hdoes2⟩ := hright.loads h2 hb1
  refine ⟨rfl, fun stack σ hroom => ?_⟩
  rw [height] at hroom
  have hpos := right.height_pos
  have hdoes : A.Does (logicCode both code1 code2 (.fresh (b1.labels + 1)) (.fresh (b1.labels + 2)))
      (stack, σ) _ :=
    Walk.does_logic (hdoes1 stack σ (by omega)) (fun _ => hdoes2 stack _ (by omega))
      (show _ < A.m.stack.limit by omega)
  simp only [eval]
  split
  next hboth => rwa [if_pos hboth] at hdoes
  next hboth => rwa [if_neg hboth] at hdoes

theorem sound_ternary {cond yes no : Expr} (hcond : cond.Sound A ctx ls) (hyes : yes.Sound A ctx ls)
    (hno : no.Sound A ctx ls)
    : (Expr.ternary span cond yes no).Sound A ctx ls := by
  intro b r hb h
  obtain ⟨code1, ty1, b1, h1, code2, ty2, b2, h2, code3, ty3, b3, h3, rfl⟩ := emit_ternary_eq_ok_iff.mp h
  have hb1 := h1.onlyLabels.locals.trans hb
  have hb2 := h2.onlyLabels.locals.trans hb1
  obtain ⟨-, hdoes1⟩ := hcond.loads h1 hb
  obtain ⟨hty, hdoes2⟩ := hyes.loads h2 hb1
  obtain ⟨-, hdoes3⟩ := hno.loads h3 hb2
  refine ⟨hty, fun stack σ hroom => ?_⟩
  rw [height] at hroom
  refine Walk.does_branch (hdoes1 stack σ (by omega)) ?_ ?_
  · intro ha
    simp only [eval, bne_iff_ne, ne_eq, ha, not_false_eq_true, if_true, Place.pile]
    exact hdoes2 stack _ (by omega)
  · intro ha
    simp only [eval, ha, bne_self_eq_false, Bool.false_eq_true, if_false, Place.pile]
    exact hdoes3 stack _ (by omega)

theorem does_discard {scope : Scope} {target : Option String} {place : Place} {a : Int32}
    {stack : List Int32} {σ : Store} (h : place.Numeric A scope target)
    : A.Does place.discard (place.pile a stack, σ) (stack, σ) := by
  cases place with
  | value ty => exact Walk.does_pop
  | var v => exact .nil _
  | void => exact h.elim
  | element v n => exact h.elim
  | deref ty => exact h.elim

theorem sound_comma (hleft : left.Sound A ctx ls) (hright : right.Sound A ctx ls) :
    (Expr.comma left right).Sound A ctx ls := by
  intro b r hb h
  obtain ⟨code1, place1, b1, h1, code2, place2, b2, h2, rfl⟩ := emit_comma_eq_ok_iff.mp h
  have hb1 := (left.keeps ctx _ _ h1).locals.trans hb
  obtain ⟨hplace1, hdoes1⟩ := hleft _ _ hb h1
  obtain ⟨hplace2, hdoes2⟩ := hright _ _ hb1 h2
  refine ⟨hplace2, fun stack σ hroom => ?_⟩
  rw [height] at hroom
  exact ((hdoes1 stack σ (by omega)).append (does_discard hplace1)).append (hdoes2 stack _ (by omega))

theorem sound_step {up before : Bool} (he : e.Sound A ctx ls) : (Expr.step up before span e).Sound A ctx ls := by
  intro b r hb h
  obtain ⟨code, ty, b1, hcode, rfl⟩ := emit_step_eq_ok_iff.mp h
  obtain ⟨x, n, v, htarget, hholds, rfl, hdoes⟩ := he.handles hcode hb
  refine ⟨hholds.not_isPointer, fun stack σ hroom => ?_⟩
  rw [height] at hroom
  have hpos := e.height_pos
  have hstep : stepCode v.ty up before = [.op (.step up before)] := by
    simp [stepCode, hholds.not_isPointer]
  have hsum : ∀ a : Int32, Int32.ofInt (a.toInt + if up then 1 else -1) = a + if up then 1 else -1 := by
    intro a
    rw [Int32.ofInt_add, Int32.ofInt_toInt]
    cases up <;> rfl
  simp only [eval, htarget, hholds.assign, Place.pile, hstep, hsum,
    eval_of_target? htarget hholds.scope, ← hholds.normalize]
  exact (hdoes stack σ hroom).append (Activation.does_step hholds.var up before (by omega))

theorem sound_assign (hleft : left.Sound A ctx ls) (hright : right.Sound A ctx ls) :
    (Expr.assign span left right).Sound A ctx ls := by
  intro b r hb h
  obtain ⟨code1, ty, b1, h1, code2, ty2, b2, h2, rfl⟩ := emit_assign_eq_ok_iff.mp h
  have hb1 := h1.onlyLabels.locals.trans hb
  obtain ⟨x, n, v, htarget, hholds, rfl, hdoes1⟩ := hleft.handles h1 hb
  obtain ⟨-, hdoes2⟩ := hright.loads h2 hb1
  refine ⟨hholds.not_isPointer, fun stack σ hroom => ?_⟩
  rw [height] at hroom
  simp only [eval, htarget, hholds.assign, Place.pile]
  refine ((hdoes1 stack σ (by omega)).append (hdoes2 _ _ ?_)).append (Activation.does_store hholds.var ?_)
  · rw [List.length_cons]
    omega
  · omega

theorem sound_update {op : Binary} (hleft : left.Sound A ctx ls) (hright : right.Sound A ctx ls) :
    (Expr.update op span left right).Sound A ctx ls := by
  intro b r hb h
  obtain ⟨code1, ty, b1, h1, code2, ty2, b2, h2, rfl⟩ := emit_update_eq_ok_iff.mp h
  have hb1 := h1.onlyLabels.locals.trans hb
  obtain ⟨x, n, v, htarget, hholds, rfl, hdoes1⟩ := hleft.handles h1 hb
  obtain ⟨-, hdoes2⟩ := hright.loads h2 hb1
  refine ⟨hholds.not_isPointer, fun stack σ hroom => ?_⟩
  rw [height] at hroom
  simp only [eval, htarget, hholds.assign, Place.pile, ← Binary.apply_eq_meaning,
    eval_of_target? htarget hholds.scope, ← hholds.normalize,
    arithmetic_of_not_isPointer op hholds.not_isPointer]
  have hold : A.Does [.op .dup, .op .load] (v.handle.encode :: stack, (left.eval (scopeOf A.g ls) σ).2)
      (v.ty.width.normalize ((left.eval (scopeOf A.g ls) σ).2 n.cell) :: v.handle.encode :: stack,
        (left.eval (scopeOf A.g ls) σ).2) :=
    (Walk.does_op rfl fun _ _ hop => Machine.runs_dup A.ready hop
      (show _ < A.m.stack.limit by rw [List.length_cons]; omega)).append
      (Activation.does_load hholds.var (by rw [List.length_cons]; omega))
  have hnew := (((hdoes1 stack σ (by omega)).append hold).append
    (hdoes2 _ _ (by simp only [List.length_cons]; omega))).append
      (Walk.does_binary (show _ < A.m.stack.limit by rw [List.length_cons]; omega) op)
  exact hnew.append (Activation.does_store hholds.var (by omega))

theorem sound (hg : ctx.globals = A.g) (hgrows : ls.Grows A.ls) :
    (e : Expr) → e.isNumeric (scopeOf A.g ls) → e.Sound A ctx ls
  | .num n, _ => sound_num n
  | .name _ _, h => sound_name hg hgrows h
  | .unary _ _ e, h => by
    rw [isNumeric, Bool.and_eq_true] at h
    exact sound_unary h.1 (sound hg hgrows e h.2)
  | .step _ _ _ e, h => sound_step (sound hg hgrows e h)
  | .binary _ _ left right, h => by
    rw [isNumeric, Bool.and_eq_true] at h
    exact sound_binary (sound hg hgrows left h.1) (sound hg hgrows right h.2)
  | .logic _ _ left right, h => by
    rw [isNumeric, Bool.and_eq_true] at h
    exact sound_logic (sound hg hgrows left h.1) (sound hg hgrows right h.2)
  | .ternary _ cond yes no, h => by
    rw [isNumeric, Bool.and_eq_true, Bool.and_eq_true] at h
    exact sound_ternary (sound hg hgrows cond h.1.1) (sound hg hgrows yes h.1.2)
      (sound hg hgrows no h.2)
  | .assign _ left right, h => by
    rw [isNumeric, Bool.and_eq_true] at h
    exact sound_assign (sound hg hgrows left h.1) (sound hg hgrows right h.2)
  | .update _ _ left right, h => by
    rw [isNumeric, Bool.and_eq_true] at h
    exact sound_update (sound hg hgrows left h.1) (sound hg hgrows right h.2)
  | .comma left right, h => by
    rw [isNumeric, Bool.and_eq_true] at h
    exact sound_comma (sound hg hgrows left h.1) (sound hg hgrows right h.2)

end Expr

end Handheld.Source
