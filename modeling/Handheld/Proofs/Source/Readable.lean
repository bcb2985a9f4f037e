import Handheld.Proofs.Asm.Reading
import Handheld.Proofs.Source.Cells
import Handheld.Proofs.Source.Flow
import Handheld.Proofs.Source.Sealing

/-!
The lines of emitted code can be read back.
-/
namespace Handheld

open Asm

def Asm.Code.Readable (code : Code) : Prop :=
  ∀ line ∈ code, line.Readable

@[simp]
theorem Asm.Code.readable_nil : Code.Readable [] := by
  rintro line ⟨⟩

@[simp]
theorem Asm.Code.readable_cons {line : Line} {code : Code} :
    Code.Readable (line :: code) ↔ line.Readable ∧ Code.Readable code := by
  simp [Code.Readable]

@[simp]
theorem Asm.Code.readable_append {a b : Code} : Code.Readable (a ++ b) ↔ Code.Readable a ∧ Code.Readable b := by
  simp only [Code.Readable, List.mem_append]
  grind

@[simp]
theorem Asm.Line.readable_op (opcode : Opcode) : (Line.op opcode []).Readable := by
  rintro a ⟨⟩

@[simp]
theorem Asm.Line.readable_jump (opcode : Opcode) (n : Nat) : (Line.op opcode [.label (.fresh n)]).Readable := by
  intro a ha
  rw [List.mem_singleton] at ha
  subst ha
  exact Label.readable_fresh n

@[simp]
theorem Asm.Line.readable_fresh (n : Nat) : (Line.label (.fresh n)).Readable :=
  Label.readable_fresh n

namespace Source

@[simp]
theorem readable_pushInt (n : Int32) : (pushInt n).Readable := by
  intro a ha
  rw [List.mem_singleton] at ha
  subst ha
  have hle := n.le_toInt
  have hlt := n.toInt_lt
  simp only [Arg.Readable]
  omega

variable {g : Globals} {line : Line} {ctx : Context} {scope : Scope} {span : Span} {b b' : Body} {code : Code}

theorem readable_logicCode {both : Bool} {left right : Code} (hleft : Code.Readable left)
    (hright : Code.Readable right) (short stop : Nat)
    : Code.Readable (logicCode both left right (.fresh short) (.fresh stop)) := by
  simp [logicCode, hleft, hright]

section

variable (hg : ∀ x, (g.functions.lookup x).isSome → (Label.named x).Readable)

include hg

theorem FlatLine.readable
    (h : FlatLine g line)
    : line.Readable := by
  cases h with
  | plain => simp
  | pushInt => simp
  | pushStr =>
    intro a ha
    rw [List.mem_singleton.mp ha]
    trivial
  | onFrame h | inData h =>
    simp only [Line.Readable, List.mem_singleton, forall_eq, Arg.Readable]
    omega
  | call h =>
    simp only [Line.Readable, List.mem_singleton, forall_eq, Arg.Readable]
    exact hg _ h
  | library => trivial

theorem BodyLine.readable
    (h : BodyLine g line)
    : line.Readable := by
  cases h with
  | flat h => exact h.readable hg
  | label => simp
  | jump => simp

end

def Context.bare (ctx : Context) : Context :=
  { ctx with globals := { ctx.globals with functions := [] } }

theorem Context.InReach.bare (h : ctx.InReach b) : ctx.bare.InReach b :=
  ⟨⟨h.globals.vars, h.globals.strings⟩, h.locals⟩

theorem Expr.emit_bare : (e : Expr) → e.isNumeric scope → e.emit ctx.bare = e.emit ctx
  | .num _, _ => by simp only [Expr.emit]
  | .name _ _, _ => by
    simp only [Expr.emit]
    rfl
  | .step _ _ _ e, h => by simp only [Expr.emit, e.emit_bare h]
  | .unary _ _ e, h => by
    rw [isNumeric, Bool.and_eq_true] at h
    simp only [Expr.emit, e.emit_bare h.2]
  | .binary _ _ left right, h | .logic _ _ left right, h | .assign _ left right, h | .update _ _ left right, h
  | .comma left right, h => by
    rw [isNumeric, Bool.and_eq_true] at h
    simp only [Expr.emit, left.emit_bare h.1, right.emit_bare h.2]
  | .ternary _ cond yes no, h => by
    rw [isNumeric, Bool.and_eq_true, Bool.and_eq_true] at h
    simp only [Expr.emit, cond.emit_bare h.1.1, yes.emit_bare h.1.2, no.emit_bare h.2]

theorem Expr.emitValue_bare {e : Expr} (h : e.isNumeric scope) : e.emitValue ctx.bare span = e.emitValue ctx span := by
  simp only [emitValue, e.emit_bare h]

theorem Expr.emitEffect_bare {e : Expr} (h : e.isNumeric scope) : e.emitEffect ctx.bare = e.emitEffect ctx := by
  simp only [emitEffect, e.emit_bare h]

theorem emitDeclared_bare {base : Base} : (ds : List Declared) → (scope : Scope) → Declared.arePlain base scope ds →
    emitDeclared ctx.bare base ds = emitDeclared ctx base ds
  | [], _, _ => rfl
  | d :: ds, scope, h => by
    rw [Declared.arePlain, Bool.and_eq_true] at h
    have hd : d.emit ctx.bare base = d.emit ctx base := by
      cases d with
      | plain => rfl
      | scalar d value =>
        simp only [Declared.isPlain, Bool.and_eq_true] at h
        simp only [Declared.emit, Expr.emitValue_bare h.1.2]
      | _ => cases h.1
    simp only [emitDeclared, hd, emitDeclared_bare ds _ h.2]

mutual

theorem Stmt.emit_bare : (s : Stmt) → ∀ (ctx : Context) (scope : Scope), s.isPlain scope → s.emit ctx.bare = s.emit ctx
  | .missing _ | .empty | .case _ _ | .default _ => fun _ _ _ => by simp only [Stmt.emit]
  | .breakOut _ | .goOn _ | .ret _ none => by
    intro ctx scope h
    simp only [Stmt.emit]
    rfl
  | .cut _ _ => by
    intro ctx scope h
    simp [isPlain] at h
  | .block ss => by
    intro ctx scope h
    rw [isPlain] at h
    simp only [Stmt.emit, Stmt.emitAll_bare ss ctx scope false h]
  | .expr e => by
    intro ctx scope h
    rw [isPlain] at h
    simp only [Stmt.emit, Expr.emitEffect_bare h]
  | .ret _ (some e) => by
    intro ctx scope h
    rw [isPlain] at h
    simp only [Stmt.emit, Expr.emitEffect_bare h, Expr.emitValue_bare h]
    rfl
  | .declare base ds => by
    intro ctx scope h
    rw [isPlain] at h
    simp only [Stmt.emit, emitDeclared_bare ds scope h]
  | .ifThen _ e yes => by
    intro ctx scope h
    rw [isPlain, Bool.and_eq_true] at h
    simp only [Stmt.emit, Expr.emitValue_bare h.1, yes.emit_bare ctx scope h.2]
  | .ifElse _ e yes no => by
    intro ctx scope h
    rw [isPlain, Bool.and_eq_true, Bool.and_eq_true] at h
    simp only [Stmt.emit, Expr.emitValue_bare h.1.1, yes.emit_bare ctx scope h.1.2, no.emit_bare ctx _ h.2]
  | .whileLoop _ e body => by
    intro ctx scope h
    rw [isPlain, Bool.and_eq_true] at h
    have hbody exit next := body.emit_bare { ctx with exit, next } scope h.2
    simp only [Stmt.emit, Expr.emitValue_bare h.1]
    simp only [Context.bare] at hbody ⊢
    simp only [hbody]
  | .doLoop body _ e => by
    intro ctx scope h
    rw [isPlain, Bool.and_eq_true] at h
    have hbody exit next := body.emit_bare { ctx with exit, next } scope h.1
    simp only [Stmt.emit, Expr.emitValue_bare h.2]
    simp only [Context.bare] at hbody ⊢
    simp only [hbody]
  | .forLoop opened init cond step body => by
    intro ctx scope h
    rw [isPlain, Bool.and_eq_true, Bool.and_eq_true, Bool.and_eq_true] at h
    have hcond e (he : cond = some e) : e.emitValue ctx.bare opened = e.emitValue ctx opened :=
      Expr.emitValue_bare (by simpa [he] using h.1.1.2)
    have hstep e (he : step = some e) : e.emitEffect ctx.bare = e.emitEffect ctx :=
      Expr.emitEffect_bare (by simpa [he] using h.1.2)
    have hbody exit next := body.emit_bare { ctx with exit, next } _ h.2
    cases cond <;> cases step <;> simp only [Stmt.emit, init.emit_bare ctx scope h.1.1.1, hcond, hstep]
    all_goals
      simp only [Context.bare] at hbody ⊢
      simp only [hbody]
  | .switch _ _ e body => by
    intro ctx scope h
    cases body with
    | block ss =>
      rw [isPlain, Bool.and_eq_true] at h
      have hbody exit := Stmt.emitAll_bare ss { ctx with exit } scope true h.2
      simp only [Stmt.emit, Expr.emitValue_bare h.1]
      simp only [Context.bare] at hbody ⊢
      simp only [hbody]
    | _ => cases h

theorem Stmt.emitAll_bare : (ss : List Stmt) → ∀ (ctx : Context) (scope : Scope) (labels : Bool),
    Stmt.arePlain labels scope ss → Stmt.emitAll ctx.bare ss = Stmt.emitAll ctx ss
  | [] => fun _ _ _ _ => rfl
  | s :: ss => by
    intro ctx scope labels h
    rw [arePlain, Bool.and_eq_true, Bool.or_eq_true, Bool.and_eq_true] at h
    have hs : s.emit ctx.bare = s.emit ctx := by
      rcases h.1 with hs | ⟨-, hs⟩
      · exact s.emit_bare ctx scope hs
      · cases s with
        | case | default => rfl
        | _ => cases hs
    simp only [Stmt.emitAll, hs, Stmt.emitAll_bare ss ctx _ labels h.2]

end

theorem readable_of_bare (h : Lined ctx.bare.globals code) : Code.Readable code :=
  fun line hline => (h line hline).readable fun x hx => by cases hx

theorem Expr.Loads.readable {e : Expr} {ty : Ty} (h : e.Loads ctx span b code ty b') (hreach : ctx.InReach b)
    (hnumeric : e.isNumeric scope)
    : Code.Readable code := by
  obtain ⟨c, p, c', hemit, hload, rfl⟩ := h
  rw [← e.emit_bare hnumeric] at hemit
  have hbare : e.Loads ctx.bare span b (c ++ c') ty b' := ⟨c, p, c', hemit, hload, rfl⟩
  exact readable_of_bare (hbare.sealed hreach.bare.near).lines

theorem Stmt.readable {s : Stmt} (h : s.emit ctx b = .ok (code, b')) (hreach : ctx.InReach b)
    (hfresh : ctx.Fresh) (hplain : s.isPlain scope)
    : Code.Readable code := by
  rw [← s.emit_bare ctx scope hplain] at h
  exact readable_of_bare ((s.emits h).seals hfresh hreach.bare).code.lines

end Source
end Handheld
