import Handheld.Proofs.Source.Dispatch
import Handheld.Proofs.Source.Expressions

/-!
The code of plain statements leads to the place that belongs to the way a statement ended.
-/
namespace Handheld.Source

open Asm

variable {d : Declared} {ds : List Declared}

variable {A : Activation} {stack : List Int32} {scope : Scope} {ss : List Stmt} {s : Stmt}
  {e : Expr} {base : Base} {ctx : Context} {code : Code}

def Context.pile (ctx : Context) (stack : List Int32) : Outcome → List Int32
  | .returned v => if ctx.main || ctx.ret.isVoid then stack else v.getD 0 :: stack
  | _ => stack

def Context.leave (ctx : Context) : Opcode :=
  if ctx.main then .exit else .ret

namespace Activation

def Arrives (A : Activation) (ctx : Context) (code : Code) (pos : Nat) : Outcome → Nat → Prop
  | .normal, pc => pc = pos + code.extent
  | .broke, pc => ∃ l, ctx.exit = some l ∧ A.address l = some pc
  | .continued, pc => ∃ l, ctx.next = some l ∧ A.address l = some pc
  | .returned _, pc =>
    ∃ before after : Code, code = before ++ [.op ctx.leave] ++ after ∧ pc = pos + before.extent

def Ends (A : Activation) (ctx : Context) (code : Code) (pos : Nat) (stack : List Int32) (σ : Store) (o : Outcome)
    (σ' : Store) : Prop :=
  ∃ pc, A.Arrives ctx code pos o pc ∧ A.Leads ⟨pos, stack, σ⟩ ⟨pc, ctx.pile stack o, σ'⟩

section Ends

variable {ctx ctx' : Context} {code sub : Code} {pos pos' : Nat} {σ σ1 σ' : Store} {o o' : Outcome}

theorem Ends.of_leads (h : A.Leads ⟨pos, stack, σ⟩ ⟨pos + code.extent, stack, σ'⟩) :
    A.Ends ctx code pos stack σ .normal σ' :=
  ⟨_, rfl, h⟩

theorem Ends.leads (h : A.Ends ctx code pos stack σ .normal σ') :
    A.Leads ⟨pos, stack, σ⟩ ⟨pos + code.extent, stack, σ'⟩ := by
  obtain ⟨pc, rfl, hlead⟩ := h
  exact hlead

theorem Ends.again (hlead : A.Leads ⟨pos, stack, σ⟩ ⟨pos, stack, σ1⟩) (h : A.Ends ctx code pos stack σ1 o σ') :
    A.Ends ctx code pos stack σ o σ' := by
  obtain ⟨pc, hpc, hlead'⟩ := h
  exact ⟨pc, hpc, hlead.trans hlead'⟩

theorem Ends.within (front back : Code) (hcode : code = front ++ sub ++ back) (hpos : pos' = pos + front.extent)
    (hlead : A.Leads ⟨pos, stack, σ⟩ ⟨pos', stack, σ1⟩) (h : A.Ends ctx sub pos' stack σ1 o σ')
    (hback : o = .normal → A.Leads ⟨pos' + sub.extent, stack, σ'⟩ ⟨pos + code.extent, stack, σ'⟩)
    : A.Ends ctx code pos stack σ o σ' := by
  obtain ⟨pc, hpc, hsub⟩ := h
  cases o with
  | normal =>
    cases hpc
    exact .of_leads ((hlead.trans hsub).trans (hback rfl))
  | broke | continued => exact ⟨pc, hpc, hlead.trans hsub⟩
  | returned v =>
    obtain ⟨before, after, rfl, rfl⟩ := hpc
    refine ⟨_, ⟨front ++ before, after ++ back, ?_, ?_⟩, hlead.trans hsub⟩
    · simp [hcode]
    · rw [hpos, Code.extent_append, Nat.add_assoc]

theorem Ends.returned {v : Option Int32} (hmain : ctx'.main = ctx.main) (hret : ctx'.ret = ctx.ret)
    (h : A.Ends ctx' code pos stack σ (.returned v) σ')
    : A.Ends ctx code pos stack σ (.returned v) σ' := by
  unfold Ends Arrives Context.pile Context.leave at h ⊢
  rwa [hmain, hret] at h

end Ends

end Activation

namespace Stmt

inductive Item (scope : Scope) : Stmt → Prop where
  | plain {s : Stmt} (h : s.isPlain scope) : Item scope s
  | label {s : Stmt} (h : s.isLabel) : Item scope s
  | block {ss : List Stmt} (h : arePlain true scope ss) : Item scope (.block ss)

theorem arePlain_labels (h : arePlain false scope ss) : arePlain true scope ss := by
  induction ss generalizing scope with
  | nil => rfl
  | cons s ss ih =>
    rw [arePlain, Bool.and_eq_true, Bool.or_eq_true] at h ⊢
    exact ⟨.inl (h.1.resolve_right nofun), ih h.2⟩

theorem Item.arePlain (h : Item scope (.block ss)) : arePlain true scope ss := by
  cases h with
  | plain h =>
    rw [isPlain] at h
    exact arePlain_labels h
  | label h => cases h
  | block h => exact h

theorem Item.isPlain (h : Item scope s) (hlabel : s.isLabel = false) (hblock : ∀ ss, s ≠ .block ss) :
    s.isPlain scope := by
  cases h with
  | plain h => exact h
  | label h => cases hlabel.symm.trans h
  | block => exact absurd rfl (hblock _)

theorem Item.head (h : Item scope (.block (s :: ss))) : Item scope s := by
  have h := h.arePlain
  rw [Stmt.arePlain, Bool.and_eq_true, Bool.or_eq_true] at h
  exact h.1.elim .plain .label

theorem Item.tail (h : Item scope (.block (s :: ss))) : Item (s.behind scope) (.block ss) := by
  have h := h.arePlain
  rw [Stmt.arePlain, Bool.and_eq_true] at h
  exact .block h.2

theorem Tests.given {opened : Span} {stop : Label} {b b' : Body} {ty : Ty} (h : e.Loads ctx opened b code ty b') :
    Tests ctx opened (some e) stop b (code ++ [.op .jz [.label stop]]) b' :=
  ⟨code, ty, h, rfl⟩

end Stmt

theorem Declared.height_cons (d : Declared) (ds : List Declared) : height (d :: ds) = max (height [d]) (height ds) := by
  cases d <;> simp [height]

namespace Activation

structure Knows (A : Activation) (scope : Scope) (ctx : Context) (b : Body) : Prop where
  globals : ctx.globals = A.g
  names : scopeOf A.g b.locals = scope
  built : b.locals.Built

section Knows

variable {b b' : Body} {σ : Store} {span : Span} {ty : Ty}

section

variable (h : A.Knows scope ctx b)

include h

theorem Knows.of_locals (hb : b'.locals = b.locals) : A.Knows scope ctx b' where
  globals := h.globals
  names := by rw [hb, h.names]
  built := by rw [hb]; exact h.built

theorem Knows.loads (hcode : e.Loads ctx span b code ty b') : A.Knows scope ctx b' :=
  h.of_locals hcode.onlyLabels.locals

theorem Knows.behind {s : Stmt} (hs : s.Item scope) (hcode : s.emit ctx b = .ok (code, b'))
    : A.Knows (s.behind scope) ctx b' := by
  refine ⟨h.globals, ?_, h.built.grows (Stmt.grows hcode)⟩
  rw [← h.names] at hs ⊢
  cases hs with
  | plain hs => exact (s.emitted hcode hs).scope
  | label hs =>
    rw [Stmt.behind_of_isLabel hs]
    exact (Emitted.label hs hcode).scope
  | block hss =>
    rw [Stmt.emit] at hcode
    exact (Stmt.emitted_all _ hcode hss).scope

theorem Knows.does_loads (he : e.isNumeric scope)
    (hcode : e.Loads ctx span b code ty b') (hgrows : b'.locals.Grows A.ls)
    (hroom : stack.length + e.height ≤ A.m.stack.limit)
    : A.Does code (stack, σ) ((e.eval scope σ).1 :: stack, (e.eval scope σ).2) := by
  have hb := hcode.onlyLabels.locals
  rw [hb] at hgrows
  rw [← h.names] at he ⊢
  exact ((e.sound h.globals hgrows he).loads hcode rfl).2 stack σ hroom

theorem Knows.does_effect (he : e.isNumeric scope)
    (hcode : e.emitEffect ctx b = .ok (code, b')) (hgrows : b'.locals.Grows A.ls)
    (hroom : stack.length + e.height ≤ A.m.stack.limit)
    : A.Does code (stack, σ) (stack, (e.eval scope σ).2) := by
  have hb := (onlyLabels_effect hcode).locals
  rw [hb] at hgrows
  rw [← h.names] at he ⊢
  obtain ⟨c, place, b1, hemit, heq⟩ := Expr.emitEffect_eq_ok_iff.mp hcode
  cases heq
  obtain ⟨hplace, hdoes⟩ := e.sound h.globals hgrows he b _ rfl hemit
  exact (hdoes stack σ hroom).append (Expr.does_discard hplace)

end

theorem holds_declared {ls ls' : Locals} {x : String} {v : Var}
    (h : ls.declare x ty [] span = .ok (v, ls')) (hty : ty.pointer = 0) (hbase : ty.base = base)
    (hgrows : ls'.Grows A.ls)
    : A.Holds (scope.declare x base) x ⟨.frame x, base⟩ v := by
  obtain ⟨w, rfl, -, -, heq⟩ := Locals.declare_eq_ok_iff.mp h
  cases heq
  have hlookup := hgrows.lookup (x := x) (by rw [Table.lookup_insert, if_pos rfl])
  refine ⟨?_, ?_, hbase.symm⟩
  · rw [Scope.declare, Function.update_self]
  · simp [Cell.var?, hlookup, Option.filter, Var.isNumber, hty]

theorem Knows.does_declared (h : A.Knows scope ctx b) (hd : d.isPlain base scope)
    (hcode : d.emit ctx base b = .ok (code, b')) (hgrows : b'.locals.Grows A.ls)
    (hroom : stack.length + Declared.height [d] ≤ A.m.stack.limit)
    : A.Does code (stack, σ) (stack, d.init base scope σ) := by
  cases d with
  | plain d =>
    obtain ⟨-, dims, -, v, ls1, -, heq⟩ := Declared.emit_plain_eq_ok_iff.mp hcode
    cases heq
    exact .nil _
  | scalar d value =>
    simp only [Declared.isPlain, Bool.and_eq_true, beq_iff_eq] at hd
    obtain ⟨-, v, ls1, hdeclare, c, ty, b1, hload, heq⟩ := Declared.emit_scalar_eq_ok_iff.mp hcode
    cases heq
    have hb := hload.onlyLabels.locals
    have hholds : A.Holds (scope.declare d.name base) d.name ⟨.frame d.name, base⟩ v := by
      refine holds_declared hdeclare hd.1 rfl ?_
      rwa [hb] at hgrows
    have hknows : A.Knows (scope.declare d.name base) ctx { b with locals := ls1 } := by
      refine ⟨h.globals, ?_, h.built.grows (Body.onlyGrows_declare hdeclare).locals⟩
      rw [← h.names]
      exact scopeOf_declare hdeclare hd.1
    have hpos := value.height_pos
    simp only [Declared.height] at hroom
    simp only [Declared.init]
    rw [hholds.assign]
    -- the value comes on top of the address of the variable
    have hvalue : A.Does c (v.handle.encode :: stack, σ) _ :=
      hknows.does_loads hd.2 hload hgrows (by simp only [List.length_cons]; omega)
    exact ((does_handle hholds.var (by omega)).append hvalue).append
      ((does_store hholds.var (by omega)).append Walk.does_pop)
  | _ => cases hd

theorem Knows.declared (h : A.Knows scope ctx b) (hd : d.isPlain base scope)
    (hcode : d.emit ctx base b = .ok (code, b'))
    : A.Knows (d.behind base scope) ctx b' := by
  refine ⟨h.globals, ?_, h.built.grows (d.onlyGrows hcode).locals⟩
  rw [← h.names] at hd ⊢
  exact (d.emitted hd hcode).scope

theorem Knows.does_declared_all (h : A.Knows scope ctx b)
    (hds : Declared.arePlain base scope ds) (hcode : emitDeclared ctx base ds b = .ok (code, b'))
    (hgrows : b'.locals.Grows A.ls) (hroom : stack.length + Declared.height ds ≤ A.m.stack.limit)
    : A.Does code (stack, σ) (stack, Declared.initAll base scope ds σ) := by
  induction ds generalizing scope b code σ with
  | nil =>
    cases hcode
    exact .nil _
  | cons d ds ih =>
    rw [Declared.arePlain, Bool.and_eq_true] at hds
    obtain ⟨c1, b1, h1, c2, _, h2, heq⟩ := emitDeclared_cons_eq_ok_iff.mp hcode
    cases heq
    have hgrows1 := (onlyGrows_declared h2).locals.trans hgrows
    have hheight := Declared.height_cons d ds
    refine (h.does_declared hds.1 h1 hgrows1 (by omega)).append ?_
    exact ih (h.declared hds.1 h1) hds.2 h2 (by omega)

end Knows

section Tests

variable {b b' : Body} {pos target : Nat} {σ σ' : Store} {opened : Span} {cond step : Option Expr}
  {stop : Label}

theorem Knows.leads_test {go : Bool} (h : A.Knows scope ctx b) (hcode : Stmt.Tests ctx opened cond stop b code b')
    (hcond : cond.all (·.isNumeric scope)) (hgrows : b'.locals.Grows A.ls)
    (hroom : stack.length + cond.elim 0 Expr.height ≤ A.m.stack.limit) (hstands : A.Stands pos code)
    (htarget : A.address stop = some target) (htest : scope.test cond σ = (go, σ'))
    : A.Leads ⟨pos, stack, σ⟩ ⟨if go then pos + code.extent else target, stack, σ'⟩ := by
  cases cond with
  | none =>
    obtain ⟨rfl, -⟩ := hcode
    cases htest
    exact .refl _
  | some e =>
    obtain ⟨c, ty, hload, rfl⟩ := hcode
    obtain ⟨rfl, rfl⟩ := Prod.mk.inj htest
    obtain ⟨hsc, hsjz⟩ := stands_append.mp hstands
    refine (h.does_loads hcond hload hgrows hroom _ hsc).trans ?_
    have hjump : A.Leads ⟨pos + c.extent, (e.eval scope σ).1 :: stack, (e.eval scope σ).2⟩ _ :=
      Walk.leads_decides true hsjz htarget
    rwa [Code.extent_append, Code.extent_cons, Code.extent_nil, size_jz, ← Nat.add_assoc, ← beq_true (_ != _)]

theorem Knows.does_steps (h : A.Knows scope ctx b) (hstep : step.all (·.isNumeric scope))
    (hcode : Stmt.Steps ctx step b code b') (hgrows : b'.locals.Grows A.ls)
    (hroom : stack.length + step.elim 0 Expr.height ≤ A.m.stack.limit)
    : A.Does code (stack, σ) (stack, scope.step step σ) := by
  cases step with
  | none =>
    obtain ⟨rfl, -⟩ := hcode
    exact .nil _
  | some e => exact h.does_effect hstep hcode hgrows hroom

end Tests

structure Setting (A : Activation) (scope : Scope) (s : Stmt) (ctx : Context) (b : Body) (code : Code) (b' : Body)
    (pos : Nat) (stack : List Int32) : Prop extends A.Knows scope ctx b where
  item : s.Item scope
  emit : s.emit ctx b = .ok (code, b')
  grows : b'.locals.Grows A.ls
  stands : A.Stands pos code
  room : stack.length + s.height ≤ A.m.stack.limit

def Follows (A : Activation) (scope : Scope) (s : Stmt) (σ : Store) (o : Outcome) (σ' : Store) : Prop :=
  ∀ {ctx b code b' pos stack}, A.Setting scope s ctx b code b' pos stack → A.Ends ctx code pos stack σ o σ'

section Follows

variable {σ σ1 σ2 σ' : Store} {o o' : Outcome} {s yes no body : Stmt} {opened span : Span}

theorem follows_empty : A.Follows scope .empty σ .normal σ := by
  intro ctx b code b' pos stack h
  cases Stmt.emits _ h.emit
  exact .of_leads (.refl _)

theorem follows_nil : A.Follows scope (.block []) σ .normal σ := by
  intro ctx b code b' pos stack h
  cases Stmt.emits _ h.emit
  exact .of_leads (.refl _)

theorem Setting.cons {ctx : Context} {b b' : Body} {code : Code} {pos : Nat} {stack : List Int32}
    (h : A.Setting scope (.block (s :: ss)) ctx b code b' pos stack)
    : ∃ c1 b1 c2, code = c1 ++ c2 ∧ A.Setting scope s ctx b c1 b1 pos stack
        ∧ A.Setting (s.behind scope) (.block ss) ctx b1 c2 b' (pos + c1.extent) stack := by
  cases Stmt.emits _ h.emit with | @cons _ _ _ _ c1 b1 c2 _ h1 h2 =>
  have hgrows : b1.locals.Grows A.ls := (Stmt.grows_all h2).trans h.grows
  obtain ⟨hsc1, hsc2⟩ := stands_append.mp h.stands
  have hroom := h.room
  rw [Stmt.height, Stmt.heightAll] at hroom
  refine ⟨c1, b1, c2, rfl, ⟨h.toKnows, h.item.head, h1, hgrows, hsc1, by omega⟩, ?_⟩
  refine ⟨h.behind h.item.head h1, h.item.tail, ?_, h.grows, hsc2, ?_⟩
  · rw [Stmt.emit]
    exact h2
  · rw [Stmt.height]
    omega

theorem follows_cons (hs : A.Follows scope s σ .normal σ1) (hss : A.Follows (s.behind scope) (.block ss) σ1 o σ') :
    A.Follows scope (.block (s :: ss)) σ o σ' := by
  intro ctx b code b' pos stack h
  obtain ⟨c1, b1, c2, rfl, h1, h2⟩ := h.cons
  refine .within c1 [] (List.append_nil _).symm rfl (hs h1).leads (hss h2) fun _ => .of_eq ?_
  rw [Code.extent_append, Nat.add_assoc]

theorem follows_abrupt (hs : A.Follows scope s σ o σ') (ho : o ≠ .normal) :
    A.Follows scope (.block (s :: ss)) σ o σ' := by
  intro ctx b code b' pos stack h
  obtain ⟨c1, b1, c2, rfl, h1, h2⟩ := h.cons
  exact .within [] c2 rfl rfl (.refl _) (hs h1) fun hnormal => absurd hnormal ho

theorem follows_expr : A.Follows scope (.expr e) σ .normal (e.eval scope σ).2 := by
  intro ctx b code b' pos stack h
  have hemit := h.emit
  have he := h.item.isPlain rfl nofun
  have hroom := h.room
  rw [Stmt.emit] at hemit
  rw [Stmt.isPlain] at he
  rw [Stmt.height] at hroom
  exact .of_leads (h.does_effect he hemit h.grows hroom _ h.stands)

theorem follows_declare : A.Follows scope (.declare base ds) σ .normal (Declared.initAll base scope ds σ) := by
  intro ctx b code b' pos stack h
  have hemit := h.emit
  have hds := h.item.isPlain rfl nofun
  have hroom := h.room
  rw [Stmt.emit] at hemit
  rw [Stmt.isPlain] at hds
  rw [Stmt.height] at hroom
  exact .of_leads (h.does_declared_all hds hemit h.grows hroom _ h.stands)

section Branches

variable {b b' : Body} {pos : Nat}

theorem Setting.ifThen (h : A.Setting scope (.ifThen opened e yes) ctx b code b' pos stack) :
    ∃ t b1 y l, code = t ++ y ++ [.label l] ∧ A.Setting scope yes ctx b1 y b' (pos + t.extent) stack
      ∧ ∀ {go σ σ'}, scope.test (some e) σ = (go, σ') →
        A.Leads ⟨pos, stack, σ⟩ ⟨if go then pos + t.extent else pos + code.extent, stack, σ'⟩ := by
  cases Stmt.emits _ h.emit with | @ifThen _ _ _ _ _ c ty b1 y _ hcond hyes =>
  have hplain := h.item.isPlain rfl nofun
  rw [Stmt.isPlain, Bool.and_eq_true] at hplain
  have hroom := h.room
  rw [Stmt.height] at hroom
  obtain ⟨hsty, hlabel⟩ := stands_append.mp h.stands
  obtain ⟨hst, hsy⟩ := stands_append.mp hsty
  rw [stands_label] at hlabel
  refine ⟨_, b1.skip 1, y, _, rfl, ?_, ?_⟩
  · exact ⟨(h.loads hcond).of_locals rfl, .plain hplain.2, hyes, h.grows, hsy, by omega⟩
  · intro go σ σ' htest
    rw [extent_append_label]
    exact h.leads_test (.given hcond) hplain.1 ((Stmt.grows hyes :).trans h.grows) (by simp only [Option.elim]; omega) hst
      hlabel htest

theorem follows_ifThen (he : scope.test (some e) σ = (true, σ1)) (hyes : A.Follows scope yes σ1 o σ') :
    A.Follows scope (.ifThen opened e yes) σ o σ' := by
  intro ctx b code b' pos stack h
  obtain ⟨t, b1, y, l, rfl, hy, htest⟩ := h.ifThen
  refine .within t [.label l] rfl rfl (htest he) (hyes hy) fun _ => .of_eq ?_
  rw [extent_append_label, Code.extent_append, Nat.add_assoc]

theorem follows_ifSkip (he : scope.test (some e) σ = (false, σ')) :
    A.Follows scope (.ifThen opened e yes) σ .normal σ' := by
  intro ctx b code b' pos stack h
  obtain ⟨t, b1, y, l, -, -, htest⟩ := h.ifThen
  exact .of_leads (htest he)

theorem Setting.ifElse (h : A.Setting scope (.ifElse opened e yes no) ctx b code b' pos stack) :
    ∃ t b1 y b2 n l stop, code = t ++ y ++ [.op .jmp [.label stop], .label l] ++ n ++ [.label stop]
      ∧ A.Setting scope yes ctx b1 y b2 (pos + t.extent) stack
      ∧ (∀ σ, A.Leads ⟨pos + t.extent + y.extent, stack, σ⟩ ⟨pos + code.extent, stack, σ⟩)
      ∧ A.Setting (yes.behind scope) no ctx (b2.skip 1) n b' (pos + t.extent + y.extent + 4) stack
      ∧ ∀ {go σ σ'}, scope.test (some e) σ = (go, σ') →
        A.Leads ⟨pos, stack, σ⟩ ⟨if go then pos + t.extent else pos + t.extent + y.extent + 4, stack, σ'⟩ := by
  cases Stmt.emits _ h.emit with | @ifElse _ _ _ _ _ _ c ty b1 y b2 n _ hcond hyes hno =>
  have hplain := h.item.isPlain rfl nofun
  rw [Stmt.isPlain, Bool.and_eq_true, Bool.and_eq_true] at hplain
  have hroom := h.room
  rw [Stmt.height] at hroom
  have hgrows2 : b2.locals.Grows A.ls := (Stmt.grows hno :).trans h.grows
  have hgrows1 : b1.locals.Grows A.ls := (Stmt.grows hyes :).trans hgrows2
  obtain ⟨hsall, hstop⟩ := stands_append.mp h.stands
  obtain ⟨hsfront, hsn⟩ := stands_append.mp hsall
  obtain ⟨hsty, hsjmp⟩ := stands_append.mp hsfront
  obtain ⟨hst, hsy⟩ := stands_append.mp hsty
  rw [stands_cons_cons, stands_label, size_jmp] at hsjmp
  simp only [Code.extent_append _ y, Code.extent_append _ [_, _], Code.extent_cons, Code.extent_nil, size_label,
    size_jmp, Nat.add_zero, ← Nat.add_assoc] at hsn hsjmp
  have hknows : A.Knows scope ctx (b1.skip 1) := (h.loads hcond).of_locals rfl
  refine ⟨_, b1.skip 1, y, b2, n, _, _, rfl, ?_, fun σ => Walk.leads_jmp hsjmp.1 ?_, ?_, ?_⟩
  · exact ⟨hknows, .plain hplain.1.2, hyes, hgrows2, hsy, by omega⟩
  · rw [extent_append_label]
    exact stands_label.mp hstop
  · refine ⟨?_, .plain hplain.2, hno, h.grows, hsn, by omega⟩
    exact (hknows.behind (.plain hplain.1.2) hyes).of_locals rfl
  · intro go σ σ' htest
    exact h.leads_test (.given hcond) hplain.1.1 hgrows1 (by simp only [Option.elim]; omega) hst hsjmp.2 htest

theorem follows_ifYes (he : scope.test (some e) σ = (true, σ1)) (hyes : A.Follows scope yes σ1 o σ') :
    A.Follows scope (.ifElse opened e yes no) σ o σ' := by
  intro ctx b code b' pos stack h
  obtain ⟨t, b1, y, b2, n, l, stop, rfl, hy, hskip, -, htest⟩ := h.ifElse
  refine .within t ([.op .jmp [.label stop], .label l] ++ n ++ [.label stop]) ?_ rfl (htest he) (hyes hy) fun _ => hskip _
  simp

theorem follows_ifNo (he : scope.test (some e) σ = (false, σ1)) (hno : A.Follows (yes.behind scope) no σ1 o σ') :
    A.Follows scope (.ifElse opened e yes no) σ o σ' := by
  intro ctx b code b' pos stack h
  obtain ⟨t, b1, y, b2, n, l, stop, rfl, -, -, hn, htest⟩ := h.ifElse
  refine .within _ [.label stop] rfl ?_ (htest he) (hno hn) fun _ => .of_eq ?_
  · simp [size_label, size_jmp, Nat.add_assoc]
  · simp [size_label, size_jmp, Nat.add_assoc]

end Branches

end Follows

end Activation
end Handheld.Source
