import Handheld.Proofs.Source.Statements

/-!
Loops at work: the three kinds differ in which part holds the test, and in where `continue` leads.
-/
namespace Handheld.Source

open Asm

namespace Activation

section Turns

variable {A : Activation} {ctx : Context} {pos : Nat} {stack : List Int32} {σ σ1 σ' : Store} {o o' : Outcome}

def loopCode (top stop : Label) (front body behind : Code) (jump : Line) : Code :=
  [.label top] ++ front ++ body ++ behind ++ [jump, .label stop]

variable {top stop next : Label} {front body behind : Code} {jump : Line}

theorem stands_loopCode {code : Code} (hcode : code = loopCode top stop front body behind jump) (h : A.Stands pos code) :
    A.address top = some pos ∧ A.Stands pos front ∧ A.Stands (pos + front.extent) body
      ∧ A.Stands (pos + front.extent + body.extent) behind
      ∧ A.Stands (pos + front.extent + body.extent + behind.extent) [jump]
      ∧ A.address stop = some (pos + code.extent) := by
  subst hcode
  simp only [loopCode, stands_append, stands_cons_cons, stands_label, Code.extent_append, Code.extent_cons,
    Code.extent_nil, size_label, Nat.add_zero, Nat.zero_add, ← Nat.add_assoc] at h ⊢
  obtain ⟨⟨⟨⟨htop, hfront⟩, hbody⟩, hbehind⟩, hjump, hstop⟩ := h
  exact ⟨htop, hfront, hbody, hbehind, hjump, hstop⟩

theorem ends_loop (hlead : A.Leads ⟨pos, stack, σ⟩ ⟨pos + front.extent, stack, σ1⟩)
    (hstop : A.address stop = some (pos + (loopCode top stop front body behind jump).extent))
    (h : A.Ends { ctx with exit := some stop, next := some next } body (pos + front.extent) stack σ1 o σ')
    (ho : o.ofBody = some o')
    : A.Ends ctx (loopCode top stop front body behind jump) pos stack σ o' σ' := by
  cases o with
  | normal => cases ho
  | continued => cases ho
  | broke =>
    cases ho
    obtain ⟨pc, ⟨l, hl, haddress⟩, hbody⟩ := h
    cases hl
    cases hstop.symm.trans haddress
    exact .of_leads (hlead.trans hbody)
  | returned v =>
    cases ho
    have hbody : A.Ends ctx body (pos + front.extent) stack σ1 (.returned v) σ' := h.returned rfl rfl
    refine .within ([.label top] ++ front) (behind ++ [jump, .label stop]) ?_ ?_ hlead hbody nofun
    · simp [loopCode]
    · simp [size_label]

theorem leads_next {target : Nat} (h : A.Ends { ctx with exit := some stop, next := some next } body pos stack σ o σ')
    (ho : o.ofBody = none) (htarget : A.address next = some target)
    (hnormal : A.Leads ⟨pos + body.extent, stack, σ'⟩ ⟨target, stack, σ'⟩)
    : A.Leads ⟨pos, stack, σ⟩ ⟨target, stack, σ'⟩ := by
  cases o with
  | normal => exact h.leads.trans hnormal
  | continued =>
    obtain ⟨pc, ⟨l, hl, haddress⟩, hbody⟩ := h
    cases hl
    cases htarget.symm.trans haddress
    exact hbody
  | broke => cases ho
  | returned v => cases ho

end Turns

variable {A : Activation} {scope : Scope} {σ σ1 σ2 σ' : Store} {o o' : Outcome} {body : Stmt} {e : Expr} {opened : Span}
  {ctx : Context} {b b' : Body} {code : Code} {pos : Nat} {stack : List Int32}

/--
The code of a loop that tests before each turn. Behind the body control comes to `target`, where `continue` leads as well,
and from there over the step back to the test.
-/
def Turns (A : Activation) (scope : Scope) (cond step : Option Expr) (body : Stmt) (ctx : Context) (code : Code)
    (pos : Nat) (stack : List Int32) : Prop :=
  ∃ top next stop front c behind jump b b' target, code = loopCode top stop front c behind jump
    ∧ A.address stop = some (pos + code.extent) ∧ A.address next = some target
    ∧ A.Setting scope body { ctx with exit := some stop, next := some next } b c b' (pos + front.extent) stack
    ∧ (∀ {go σ σ'}, scope.test cond σ = (go, σ') →
      A.Leads ⟨pos, stack, σ⟩ ⟨if go then pos + front.extent else pos + code.extent, stack, σ'⟩)
    ∧ (∀ σ, A.Leads ⟨pos + front.extent + c.extent, stack, σ⟩ ⟨target, stack, σ⟩)
    ∧ ∀ σ, A.Leads ⟨target, stack, σ⟩ ⟨pos, stack, scope.step step σ⟩

section Turns

variable {cond step : Option Expr} (h : A.Turns scope cond step body ctx code pos stack)

include h

theorem Turns.stop (hcond : scope.test cond σ = (false, σ')) : A.Ends ctx code pos stack σ .normal σ' := by
  obtain ⟨_, _, _, _, _, _, _, _, _, _, -, -, -, -, htest, -⟩ := h
  exact .of_leads (htest hcond)

theorem Turns.leave (hcond : scope.test cond σ = (true, σ1)) (hbody : A.Follows scope body σ1 o σ')
    (ho : o.ofBody = some o')
    : A.Ends ctx code pos stack σ o' σ' := by
  obtain ⟨_, _, _, _, _, _, _, _, _, _, rfl, hstop, -, hsetting, htest, -⟩ := h
  exact ends_loop (htest hcond) hstop (hbody hsetting) ho

theorem Turns.again (hcond : scope.test cond σ = (true, σ1)) (hbody : A.Follows scope body σ1 o σ2)
    (ho : o.ofBody = none) (hagain : A.Ends ctx code pos stack (scope.step step σ2) o' σ')
    : A.Ends ctx code pos stack σ o' σ' := by
  obtain ⟨_, _, _, _, _, _, _, _, _, _, -, -, hnext, hsetting, htest, hbehind, hback⟩ := h
  exact .again (((htest hcond).trans (leads_next (hbody hsetting) ho hnext (hbehind σ2))).trans (hback σ2)) hagain

end Turns

theorem Setting.whileLoop (h : A.Setting scope (.whileLoop opened e body) ctx b code b' pos stack) :
    A.Turns scope (some e) none body ctx code pos stack := by
  cases Stmt.emits _ h.emit with | @whileLoop _ _ _ _ _ t ty b1 c _ hcond hbody =>
  generalize hcode : [Line.label (.fresh (b.labels + 1))] ++ t ++ _ ++ c ++ _ = code at h
  have hcode : code = loopCode (.fresh (b.labels + 1)) (.fresh (b.labels + 2))
      (t ++ [.op .jz [.label (.fresh (b.labels + 2))]]) c [] (.op .jmp [.label (.fresh (b.labels + 1))]) := by
    simp [loopCode, ← hcode]
  have hplain := h.item.isPlain rfl nofun
  rw [Stmt.isPlain, Bool.and_eq_true] at hplain
  have hroom := h.room
  rw [Stmt.height] at hroom
  obtain ⟨htop, hst, hsbody, -, hsjmp, hstop⟩ := stands_loopCode hcode h.stands
  have hskip : A.Knows scope ctx (b.skip 2) := h.of_locals rfl
  have hknows := hskip.loads hcond
  refine ⟨_, _, _, _, c, _, _, b1, b', pos, hcode, hstop, htop, ?_, ?_, fun _ => Walk.leads_jmp hsjmp htop,
    fun _ => .refl _⟩
  · exact ⟨⟨hknows.globals, hknows.names, hknows.built⟩, .plain hplain.2, hbody, h.grows, hsbody, by omega⟩
  · exact hskip.leads_test (.given hcond) hplain.1 ((Stmt.grows hbody :).trans h.grows) (by simp only [Option.elim]; omega)
      hst hstop

theorem Setting.doLoop (h : A.Setting scope (.doLoop body opened e) ctx b code b' pos stack) :
    ∃ top next stop c behind jump b0 b1, code = loopCode top stop [] c behind jump
      ∧ A.address stop = some (pos + code.extent) ∧ A.address next = some (pos + c.extent)
      ∧ A.Setting scope body { ctx with exit := some stop, next := some next } b0 c b1 pos stack
      ∧ ∀ {again σ σ'}, (body.behind scope).test (some e) σ = (again, σ') →
        A.Leads ⟨pos + c.extent, stack, σ⟩ ⟨if again then pos else pos + code.extent, stack, σ'⟩ := by
  cases Stmt.emits _ h.emit with | @doLoop _ _ _ _ _ c b1 t ty _ hbody _ hcond =>
  generalize hcode : [Line.label (.fresh (b.labels + 1))] ++ c ++ _ ++ t ++ _ = code at h
  have hcode : code = loopCode (.fresh (b.labels + 1)) (.fresh (b.labels + 3)) [] c
      ([.label (.fresh (b.labels + 2))] ++ t) (.op .jnz [.label (.fresh (b.labels + 1))]) := by
    simp [loopCode, ← hcode]
  have hplain := h.item.isPlain rfl nofun
  rw [Stmt.isPlain, Bool.and_eq_true] at hplain
  have hroom := h.room
  rw [Stmt.height] at hroom
  obtain ⟨htop, -, hsbody, hsbehind, hsjnz, hstop⟩ := stands_loopCode hcode h.stands
  obtain ⟨hnext, hst⟩ := stands_append.mp hsbehind
  rw [Code.extent_append, ← Nat.add_assoc] at hsjnz
  have hgrows : b1.locals.Grows A.ls := hcond.onlyLabels.locals ▸ h.grows
  have hknows exit next : A.Knows scope { ctx with exit, next } (b.skip 3) := ⟨h.globals, h.names, h.built⟩
  have hbehind := (hknows _ _).behind (.plain hplain.1) hbody
  have hknows1 : A.Knows (body.behind scope) ctx b1 := ⟨h.globals, hbehind.names, hbehind.built⟩
  refine ⟨_, _, _, c, _, _, b.skip 3, b1, hcode, hstop, stands_label.mp hnext,
    ⟨hknows _ _, .plain hplain.1, hbody, hgrows, hsbody, by omega⟩, ?_⟩
  intro again σ σ' htest
  obtain ⟨rfl, rfl⟩ := Prod.mk.inj htest
  have hlead : A.Leads ⟨_, stack, σ⟩ _ := hknows1.does_loads hplain.2 hcond h.grows (by omega) _ hst
  refine (hlead.trans (Walk.leads_decides false hsjnz htop)).trans (.of_eq ?_)
  cases (e.eval (body.behind scope) σ).1 != 0 with
  | true => rfl
  | false =>
    simp [hcode, loopCode, size_label, Nat.add_assoc]
    rfl

theorem follows_doLeave (hbody : A.Follows scope body σ o σ') (ho : o.ofBody = some o') :
    A.Follows scope (.doLoop body opened e) σ o' σ' := by
  intro ctx b code b' pos stack h
  obtain ⟨_, _, _, _, _, _, _, _, rfl, hstop, -, hsetting, -⟩ := h.doLoop
  exact ends_loop (.refl _) hstop (hbody hsetting) ho

theorem Setting.leads_do {again : Bool} (h : A.Setting scope (.doLoop body opened e) ctx b code b' pos stack)
    (hbody : A.Follows scope body σ o σ1) (ho : o.ofBody = none)
    (he : (body.behind scope).test (some e) σ1 = (again, σ2))
    : A.Leads ⟨pos, stack, σ⟩ ⟨if again then pos else pos + code.extent, stack, σ2⟩ := by
  obtain ⟨_, _, _, _, _, _, _, _, -, -, hnext, hsetting, htest⟩ := h.doLoop
  exact (leads_next (hbody hsetting) ho hnext (.refl _)).trans (htest he)

theorem follows_doStop (hbody : A.Follows scope body σ o σ1) (ho : o.ofBody = none)
    (he : (body.behind scope).test (some e) σ1 = (false, σ'))
    : A.Follows scope (.doLoop body opened e) σ .normal σ' :=
  fun h => .of_leads (h.leads_do hbody ho he)

theorem follows_doAgain (hbody : A.Follows scope body σ o σ1) (ho : o.ofBody = none)
    (he : (body.behind scope).test (some e) σ1 = (true, σ2)) (hagain : A.Follows scope (.doLoop body opened e) σ2 o' σ')
    : A.Follows scope (.doLoop body opened e) σ o' σ' :=
  fun h => .again (h.leads_do hbody ho he) (hagain h)

variable {init : Stmt} {cond step : Option Expr}

theorem Setting.forInit (h : A.Setting scope (.forLoop opened init cond step body) ctx b code b' pos stack) :
    ∃ i b1 c, code = i ++ c ∧ A.Setting scope init ctx b i b1 pos stack
      ∧ A.Setting (init.behind scope) (.forLoop opened .empty cond step body) ctx b1 c b' (pos + i.extent) stack := by
  obtain ⟨i, b1, hinit, t, b2, htest, n, b3, hstep, c, _, hbody, heq⟩ := Stmt.emit_forLoop_eq_ok_iff.mp h.emit
  obtain ⟨hcode, rfl⟩ := Prod.mk.inj heq
  have hplain := h.item.isPlain rfl nofun
  rw [Stmt.isPlain, Bool.and_eq_true, Bool.and_eq_true, Bool.and_eq_true] at hplain
  have hroom := h.room
  rw [Stmt.height] at hroom
  have hempty : Stmt.empty.emit ctx b1 = .ok ([], b1) := by
    rw [Stmt.emit]
    rfl
  have hloop := Stmt.emit_forLoop_eq_ok_iff.mpr
    ⟨[], b1, hempty, t, b2, htest, n, b3, hstep, c, _, hbody, rfl⟩
  rw [List.append_assoc, List.append_assoc, List.append_assoc, List.append_assoc, List.append_assoc] at hcode
  have hstands := h.stands
  rw [← hcode, stands_append] at hstands
  have hgrows : b1.locals.Grows A.ls := (Stmt.grows hloop :).trans h.grows
  refine ⟨i, b1, _, hcode.symm, ⟨h.toKnows, .plain hplain.1.1.1, hinit, hgrows, hstands.1, by omega⟩, ?_⟩
  refine ⟨h.behind (.plain hplain.1.1.1) hinit, .plain ?_, ?_, h.grows, hstands.2, ?_⟩
  · simp only [Stmt.isPlain, Stmt.behind, Bool.true_and, Bool.and_eq_true]
    exact ⟨⟨hplain.1.1.2, hplain.1.2⟩, hplain.2⟩
  · rw [hloop]
    simp
  · simp only [Stmt.height]
    omega

theorem follows_forInit (hinit : A.Follows scope init σ .normal σ1)
    (hloop : A.Follows (init.behind scope) (.forLoop opened .empty cond step body) σ1 o σ')
    : A.Follows scope (.forLoop opened init cond step body) σ o σ' := by
  intro ctx b code b' pos stack h
  obtain ⟨i, b1, c, rfl, hi, hc⟩ := h.forInit
  refine .within i [] (List.append_nil _).symm rfl (hinit hi).leads (hloop hc) fun _ => .of_eq ?_
  rw [Code.extent_append, Nat.add_assoc]

theorem Setting.forLoop (h : A.Setting scope (.forLoop opened .empty cond step body) ctx b code b' pos stack) :
    A.Turns scope cond step body ctx code pos stack := by
  obtain ⟨i, b1, hinit, t, b2, htest, n, b3, hstep, c, b4, hbody, heq⟩ := Stmt.emit_forLoop_eq_ok_iff.mp h.emit
  cases Stmt.emits _ hinit
  obtain ⟨hcode, rfl⟩ := Prod.mk.inj heq
  have hcode : code = loopCode (.fresh (b.labels + 1)) (.fresh (b.labels + 3)) t c
      ([.label (.fresh (b.labels + 2))] ++ n) (.op .jmp [.label (.fresh (b.labels + 1))]) := by
    rw [← hcode]
    simp [loopCode]
  have hplain := h.item.isPlain rfl nofun
  simp only [Stmt.isPlain, Stmt.behind, Bool.true_and, Bool.and_eq_true] at hplain
  have hroom := h.room
  rw [Stmt.height] at hroom
  obtain ⟨htop, hst, hsbody, hsbehind, hsjmp, hstop⟩ := stands_loopCode hcode h.stands
  obtain ⟨hnext, hsn⟩ := stands_append.mp hsbehind
  rw [Code.extent_append, ← Nat.add_assoc] at hsjmp
  have hgrows3 : b3.locals.Grows A.ls := (Stmt.grows hbody :).trans h.grows
  have hgrows2 : b2.locals.Grows A.ls := hstep.onlyLabels.locals ▸ hgrows3
  have hskip : A.Knows scope ctx (b.skip 3) := h.of_locals rfl
  have hknows2 : A.Knows scope ctx b2 := h.of_locals htest.onlyLabels.locals
  have hknows3 := hknows2.of_locals hstep.onlyLabels.locals
  refine ⟨_, _, _, t, c, _, _, b3, b4, _, hcode, hstop, stands_label.mp hnext, ?_, ?_, fun _ => .refl _, ?_⟩
  · exact ⟨⟨hknows3.globals, hknows3.names, hknows3.built⟩, .plain hplain.2, hbody, h.grows, hsbody, by omega⟩
  · exact hskip.leads_test htest hplain.1.1 hgrows2 (by omega) hst hstop
  · intro σ
    have hlead : A.Leads ⟨_, stack, σ⟩ _ := hknows2.does_steps hplain.1.2 hstep hgrows3 (by omega) _ hsn
    exact hlead.trans (Walk.leads_jmp hsjmp htop)

end Activation
end Handheld.Source
