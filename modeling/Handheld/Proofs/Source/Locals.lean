import Handheld.Proofs.Source.Emits

/-!
How the frame of a function grows while its body is emitted. Expressions make up labels and change nothing else.
-/
namespace Handheld.Source

open Asm

variable {span : Span} {name : String} {ty : Ty} {e : Expr} {code : Code}

inductive Locals.Grows : Locals → Locals → Prop where
  | refl {ls : Locals} : Grows ls ls
  | claim {ls ls1 ls' : Locals} {offset : Nat} {span : Span}
    (h : ls.claim 4 span = .ok (offset, ls1)) (hrest : Grows ls1 ls') : Grows ls ls'
  | declare {ls ls1 ls' : Locals} {name : String} {ty : Ty} {dims : List Nat} {span : Span} {v : Var}
    (h : ls.declare name ty dims span = .ok (v, ls1)) (hrest : Grows ls1 ls') : Grows ls ls'

inductive Owner where
  | param (name : String)
  | var (name : String) (ty : Ty) (extents : List Nat)
  | operand
  deriving DecidableEq, Repr

def Owner.size : Owner → Nat
  | param _ => Memory.paramSlot
  | var _ ty extents => ty.arraySize extents
  | operand => 4

def Owner.Unwrapped : Owner → Prop
  | var _ ty extents => ty.Unwrapped extents
  | param _ | operand => True

def SwitchesAt (code : Code) (temp : Nat) : Prop :=
  ∃ value body dispatch stop sw,
    [.op (.access .handle .dword true) [.int temp]] ++ value ++
      [.op .store, .op .pop, .op .jmp [.label dispatch]] ++ body ++
      [.op .jmp [.label stop], .label dispatch] ++ dispatchCode temp sw stop <:+: code

def Declarator.owner (d : Declarator) (base : Base) (shape : Option Shape) : Owner :=
  .var d.name (d.ty base) (d.declared (d.ty base) shape)

def Declared.owners (base : Base) : Declared → List Owner
  | .missing _ | .function _ => []
  | .plain d => [d.owner base none]
  | .scalar d _ => [.var d.name (d.ty base) []]
  | .text d bytes => [d.owner base (some (.text bytes.length))]
  | .list d elements => [d.owner base (some (.list elements.length elements.length))]

mutual

def Stmt.owners : Stmt → List Owner
  | .missing _ | .empty | .expr _ | .case _ _ | .default _ | .breakOut _ | .goOn _ | .ret _ _ => []
  | .cut s _ => s.owners
  | .block body => Stmt.ownersAll body
  | .declare base items => items.flatMap (·.owners base)
  | .ifThen _ _ yes => yes.owners
  | .ifElse _ _ yes no => yes.owners ++ no.owners
  | .whileLoop _ _ body => body.owners
  | .doLoop body _ _ => body.owners
  | .forLoop _ init _ _ body => init.owners ++ body.owners
  | .switch _ _ _ body => .operand :: body.owners

def Stmt.ownersAll : List Stmt → List Owner
  | [] => []
  | s :: ss => s.owners ++ Stmt.ownersAll ss

end

inductive Locals.Claims (code : Code) : List Owner → Locals → Locals → Prop where
  | nil {ls : Locals} : Claims code [] ls ls
  | var {name : String} {owners : List Owner} {ls ls1 ls' : Locals} {ty : Ty} {extents dims : List Nat} {span : Span}
    {v : Var} (hdims : ty.Unwrapped extents → dims = extents) (h : ls.declare name ty dims span = .ok (v, ls1))
    (hrest : Claims code owners ls1 ls') :
    Claims code (.var name ty extents :: owners) ls ls'
  | operand {owners : List Owner} {ls ls1 ls' : Locals} {span : Span} {temp : Nat}
    (h : ls.claim 4 span = .ok (temp, ls1)) (hcode : SwitchesAt code temp) (hrest : Claims code owners ls1 ls') :
    Claims code (.operand :: owners) ls ls'

section Grows

variable {ls ls1 ls' : Locals}

theorem Locals.Grows.trans (h : ls.Grows ls1) (h' : ls1.Grows ls') : ls.Grows ls' := by
  induction h with
  | refl => exact h'
  | claim hclaim _ ih => exact .claim hclaim (ih h')
  | declare hdeclare _ ih => exact .declare hdeclare (ih h')

section

variable {owners : List Owner} {code' : Code} (h : ls.Claims code owners ls')

include h

theorem Locals.Claims.grows : ls.Grows ls' := by
  induction h with
  | nil => exact .refl
  | var _ hdeclare _ ih => exact .declare hdeclare ih
  | operand hclaim _ _ ih => exact .claim hclaim ih

theorem Locals.Claims.mono (hcode : code <:+: code') : ls.Claims code' owners ls' := by
  induction h with
  | nil => exact .nil
  | var hdims hdeclare _ ih => exact .var hdims hdeclare ih
  | operand hclaim hswitch _ ih =>
    obtain ⟨value, body, dispatch, stop, sw, hinfix⟩ := hswitch
    exact .operand hclaim ⟨value, body, dispatch, stop, sw, hinfix.trans hcode⟩ ih

theorem Locals.Claims.left : ls.Claims (code ++ code') owners ls' :=
  h.mono (List.prefix_append _ _).isInfix

theorem Locals.Claims.right : ls.Claims (code' ++ code) owners ls' :=
  h.mono (List.suffix_append _ _).isInfix

end

theorem Locals.Claims.append {owners owners' : List Owner} (h : ls.Claims code owners ls1)
    (h' : ls1.Claims code owners' ls')
    : ls.Claims code (owners ++ owners') ls' := by
  induction h with
  | nil => exact h'
  | var hdims hdeclare _ ih => exact .var hdims hdeclare (ih h')
  | operand hclaim hswitch _ ih => exact .operand hclaim hswitch (ih h')

theorem Locals.claim_eq_ok_iff {size : Nat} {r : Nat × Locals} :
    ls.claim size span = .ok r
      ↔ (ls.size + size) % 0x100000000 ≤ 0xFFFF ∧ (ls.size, { ls with size := (ls.size + size) % 0x100000000 }) = r := by
  unfold claim
  dsimp only
  split
  next hlarge => simp [Nat.not_le.mpr hlarge]
  next hsmall => simp [Nat.not_lt.mp hsmall]

theorem Locals.declare_eq_ok_iff {dims : List Nat} {r : Var × Locals}
    : ls.declare name ty dims span = .ok r
        ↔ ∃ v : Var, v = { offset := ls.size, ty := ty, dims := dims, onFrame := true }
          ∧ Table.contains ls.vars name = false ∧ (ls.size + v.size) % 0x100000000 ≤ 0xFFFF
          ∧ (v, { ls with vars := Table.insert ls.vars name v, size := (ls.size + v.size) % 0x100000000 }) = r := by
  unfold declare
  simp only [bind, Except.bind, pure, Except.pure, throw, throwThe, MonadExceptOf.throw, exists_eq_left]
  cases hname : Table.contains ls.vars name with
  | true => simp
  | false =>
    simp only [Bool.false_eq_true, ↓reduceIte, true_and]
    cases hclaim : ls.claim (Var.size { offset := ls.size, ty := ty, dims := dims, onFrame := true })
        span with
    | error e =>
      simp only [reduceCtorEq, false_iff, not_and]
      intro hsize
      unfold claim at hclaim
      simp [Nat.not_lt.mpr hsize] at hclaim
    | ok q =>
      obtain ⟨hsize, rfl⟩ := claim_eq_ok_iff.mp hclaim
      simp [hsize]

theorem Locals.param_eq_ok (h : ls.param name ty span = .ok ls') :
    Table.contains ls.vars name = false
      ∧ ls' =
        { vars := Table.insert ls.vars name
            { offset := (Memory.frameHeader + Memory.paramSlot * ls.params) % 0x10000, ty := ty, onFrame := true }
          size := ((Memory.frameHeader + Memory.paramSlot * ls.params) % 0x10000 + Memory.paramSlot) % 0x10000
          params := ls.params + 1 } := by
  unfold Locals.param at h
  split at h
  next => cases h
  next hnew =>
    cases h
    exact ⟨by simpa using hnew, rfl⟩

theorem addParams_cons_eq_ok_iff {p : Param} {ps : List Param} :
    addParams (p :: ps) ls = .ok ls'
      ↔ ∃ name, p.name = some name ∧ ∃ ls1, ls.param name p.ty p.span = .ok ls1 ∧ addParams ps ls1 = .ok ls' := by
  rw [addParams]
  cases p.name with
  | none => simp
  | some name =>
    simp only [Except.bind_eq_ok_iff, Option.some.injEq, exists_eq_left']

theorem Locals.Grows.params_eq (h : ls.Grows ls') : ls'.params = ls.params := by
  induction h with
  | refl => rfl
  | claim hclaim _ ih =>
    obtain ⟨-, heq⟩ := claim_eq_ok_iff.mp hclaim
    cases heq
    exact ih
  | declare hdeclare _ ih =>
    obtain ⟨v, -, -, -, heq⟩ := declare_eq_ok_iff.mp hdeclare
    cases heq
    exact ih

end Grows

structure Body.OnlyLabels (b b' : Body) : Prop where
  locals : b'.locals = b.locals
  switch : b'.switch = b.switch

theorem Body.OnlyLabels.refl (b : Body) : b.OnlyLabels b :=
  ⟨rfl, rfl⟩

theorem Body.OnlyLabels.trans {b b1 b' : Body} (h : b.OnlyLabels b1) (h' : b1.OnlyLabels b') : b.OnlyLabels b' :=
  ⟨h'.locals.trans h.locals, h'.switch.trans h.switch⟩

theorem Body.OnlyLabels.skip {b b' : Body} {n : Nat} (h : (b.skip n).OnlyLabels b') : b.OnlyLabels b' :=
  ⟨h.locals, h.switch⟩

def Expr.Keeps (ctx : Context) (e : Expr) : Prop :=
  ∀ b r, e.emit ctx b = .ok r → b.OnlyLabels r.2

section Keeps

variable {ctx : Context} {b b' : Body}

theorem Expr.Values.onlyLabels (h : e.Values (fun _ b _ _ b' => b.OnlyLabels b') span b code ty b') :
    b.OnlyLabels b' := by
  obtain ⟨_, _, _, hlabels, -⟩ := h
  exact hlabels

theorem Expr.Objects.onlyLabels (h : e.Objects (fun _ b _ _ b' => b.OnlyLabels b') span b code ty b') :
    b.OnlyLabels b' := by
  obtain ⟨_, _, _, hlabels, -⟩ := h
  exact hlabels

theorem Expr.Arguments.onlyLabels {args : List Expr}
    (h : Expr.Arguments (fun _ b _ _ b' => b.OnlyLabels b') span args b code b') : b.OnlyLabels b' := by
  induction args generalizing b code with
  | nil =>
    obtain ⟨-, rfl⟩ := h
    exact .refl b'
  | cons arg args ih =>
    obtain ⟨_, _, _, _, harg, hargs, -⟩ := h
    exact harg.onlyLabels.trans (ih hargs)

theorem Expr.compositional_keeps (ctx : Context) : Expr.Compositional ctx fun _ b _ _ b' => b.OnlyLabels b' where
  num _ b := .refl b
  str _ b := .refl b
  name _ := .refl _
  call _ hargs _ := hargs.onlyLabels
  index hbase _ hsub := hbase.trans hsub.onlyLabels
  step h := h.onlyLabels
  unary _ h := h.onlyLabels
  address h _ := h
  binary h1 h2 := h1.onlyLabels.trans h2.onlyLabels
  logic h1 h2 := h1.onlyLabels.trans h2.onlyLabels.skip
  ternary h1 h2 h3 := (h1.onlyLabels.trans h2.onlyLabels.skip).trans h3.onlyLabels
  assign h1 h2 := h1.onlyLabels.trans h2.onlyLabels
  update h1 h2 := h1.onlyLabels.trans h2.onlyLabels
  comma h1 h2 := h1.trans h2

theorem Expr.keeps (ctx : Context) (e : Expr) : e.Keeps ctx :=
  fun b _ h => (compositional_keeps ctx).has e b _ _ _ h

theorem Expr.Loads.onlyLabels (h : e.Loads ctx span b code ty b') : b.OnlyLabels b' := by
  obtain ⟨c, p, c', hemit, -, -⟩ := h
  exact e.keeps ctx b _ hemit

theorem Expr.Handles.onlyLabels (h : e.Handles ctx span b code ty b') : b.OnlyLabels b' := by
  obtain ⟨c, p, c', hemit, -, -⟩ := h
  exact e.keeps ctx b _ hemit

end Keeps

section Statements

variable {ctx : Context} {b b' : Body} {base : Base}

structure Body.OnlyGrows (b b' : Body) : Prop where
  locals : b.locals.Grows b'.locals
  switch : b'.switch = b.switch

theorem Body.onlyGrows_declare {dims : List Nat} {v : Var} {ls : Locals}
    (h : b.locals.declare name ty dims span = .ok (v, ls))
    : b.OnlyGrows { b with locals := ls } :=
  ⟨.declare h .refl, rfl⟩

theorem onlyLabels_elements {xs : List Element} {codes : List Code} (h : emitElements ctx xs b = .ok (codes, b'))
    : b.OnlyLabels b' := by
  induction xs generalizing b codes with
  | nil =>
    cases h
    exact .refl b'
  | cons x xs ih =>
    obtain ⟨code, ty, b1, hcode, codes, b2, hcodes, heq⟩ := emitElements_cons_eq_ok_iff.mp h
    cases heq
    exact hcode.onlyLabels.trans (ih hcodes)

theorem length_elements {xs : List Element} {codes : List Code} (h : emitElements ctx xs b = .ok (codes, b'))
    : codes.length = xs.length := by
  induction xs generalizing b codes with
  | nil =>
    cases h
    rfl
  | cons x xs ih =>
    obtain ⟨code, ty, b1, hcode, codes, b2, hcodes, heq⟩ := emitElements_cons_eq_ok_iff.mp h
    cases heq
    rw [List.length_cons, List.length_cons, ih hcodes]

theorem Declared.claims {d : Declared} (h : d.emit ctx base b = .ok (code, b')) :
    b.locals.Claims code (d.owners base) b'.locals ∧ b'.switch = b.switch := by
  cases d with
  | missing e => exact (emit_missing_eq_ok_iff.mp h).elim
  | function d => exact (emit_function_eq_ok_iff.mp h).elim
  | plain d =>
    obtain ⟨-, dims, hdims, v, ls, hdeclare, heq⟩ := emit_plain_eq_ok_iff.mp h
    cases heq
    exact ⟨.var (Declarator.extents_eq hdims) hdeclare .nil, rfl⟩
  | scalar d value =>
    obtain ⟨-, v, ls, hdeclare, code, ty, b1, hcode, heq⟩ := emit_scalar_eq_ok_iff.mp h
    cases heq
    have hkeeps := hcode.onlyLabels
    rw [hkeeps.locals, hkeeps.switch]
    exact ⟨.var (fun _ => rfl) hdeclare .nil, rfl⟩
  | text d bytes =>
    obtain ⟨-, -, dims, hdims, v, ls, hdeclare, -, heq⟩ := emit_text_eq_ok_iff.mp h
    cases heq
    exact ⟨.var (Declarator.extents_eq hdims) hdeclare .nil, rfl⟩
  | list d elements =>
    obtain ⟨-, values, b1, hvalues, dims, hdims, v, ls, hdeclare, -, heq⟩ := emit_list_eq_ok_iff.mp h
    cases heq
    have hkeeps := onlyLabels_elements hvalues
    rw [length_elements hvalues] at hdims
    rw [← hkeeps.locals, ← hkeeps.switch]
    exact ⟨.var (Declarator.extents_eq hdims) hdeclare .nil, rfl⟩

theorem claims_declared {ds : List Declared} (h : emitDeclared ctx base ds b = .ok (code, b')) :
    b.locals.Claims code (ds.flatMap (·.owners base)) b'.locals ∧ b'.switch = b.switch := by
  induction ds generalizing b code with
  | nil =>
    cases h
    exact ⟨.nil, rfl⟩
  | cons d ds ih =>
    obtain ⟨code1, b1, h1, code2, b2, h2, heq⟩ := emitDeclared_cons_eq_ok_iff.mp h
    cases heq
    obtain ⟨hfirst, hswitch⟩ := Declared.claims h1
    obtain ⟨hrest, hswitch'⟩ := ih h2
    rw [List.flatMap_cons]
    exact ⟨hfirst.left.append hrest.right, hswitch'.trans hswitch⟩

theorem Declared.onlyGrows {d : Declared} (h : d.emit ctx base b = .ok (code, b')) : b.OnlyGrows b' :=
  ⟨(claims h).1.grows, (claims h).2⟩

theorem onlyGrows_declared {ds : List Declared} (h : emitDeclared ctx base ds b = .ok (code, b')) : b.OnlyGrows b' :=
  ⟨(claims_declared h).1.grows, (claims_declared h).2⟩

theorem Stmt.Tests.onlyLabels {opened : Span} {cond : Option Expr} {stop : Label}
    (h : Stmt.Tests ctx opened cond stop b code b')
    : b.OnlyLabels b' := by
  cases cond with
  | none =>
    obtain ⟨-, rfl⟩ := h
    exact .refl b'
  | some cond =>
    obtain ⟨c, ty, hcode, -⟩ := h
    exact hcode.onlyLabels

theorem onlyLabels_effect (h : e.emitEffect ctx b = .ok (code, b')) : b.OnlyLabels b' := by
  obtain ⟨code, place, b1, hcode, heq⟩ := Expr.emitEffect_eq_ok_iff.mp h
  cases heq
  exact (e.keeps ctx _ _ hcode :)

theorem Stmt.Steps.onlyLabels {step : Option Expr} (h : Stmt.Steps ctx step b code b') : b.OnlyLabels b' := by
  cases step with
  | none =>
    obtain ⟨-, rfl⟩ := h
    exact .refl b'
  | some step => exact onlyLabels_effect h

end Statements

section Statements

variable {ctx : Context} {b b' : Body} {s : Stmt}

theorem Stmt.Emits.claims (h : Stmt.Emits ctx b s code b') : b.locals.Claims code s.owners b'.locals := by
  induction h with
  | empty | nil | case | default | breakOut | goOn | ret => exact .nil
  | cons _ _ _ _ ih ih' => exact ih.left.append ih'.right
  | declare h => exact (claims_declared h).1
  | expr h | retEffect _ h =>
    rw [(onlyLabels_effect h).locals]
    exact .nil
  | retValue _ h =>
    rw [h.onlyLabels.locals]
    exact .nil
  | ifThen hcond _ _ ih =>
    rw [Body.skip, hcond.onlyLabels.locals] at ih
    exact ih.right.left
  | ifElse hcond _ _ _ _ ih ih' =>
    rw [Body.skip, hcond.onlyLabels.locals] at ih
    exact ih.right.left.left.left.append ih'.right.left
  | whileLoop hcond _ _ ih =>
    rw [hcond.onlyLabels.locals] at ih
    exact ih.right.left
  | doLoop _ _ hcond ih =>
    rw [hcond.onlyLabels.locals]
    exact ih.right.left.left.left
  | forLoop _ htest hstep _ _ _ ih ih' =>
    rw [hstep.onlyLabels.locals, htest.onlyLabels.locals] at ih'
    exact ih.left.left.left.left.left.left.append ih'.right.left.left.left
  | switch htemp hcond _ _ ih =>
    dsimp only [Body.skip] at ih
    rw [hcond.onlyLabels.locals] at ih
    exact .operand htemp ⟨_, _, _, _, _, List.infix_refl _⟩ ih.right.left.left

theorem Stmt.grows (h : s.emit ctx b = .ok (code, b')) : b.locals.Grows b'.locals :=
  (s.emits h).claims.grows

theorem Stmt.grows_all {ss : List Stmt} (h : Stmt.emitAll ctx ss b = .ok (code, b')) : b.locals.Grows b'.locals :=
  (Stmt.emits_all ss h).claims.grows

end Statements

end Handheld.Source
