import Handheld.Proofs.Source.Loops

/-!
Every way through a plain statement is the way through its code: `switch`, jumps, and what leaves the function.
-/
namespace Handheld.Source

open Asm

variable {ss before behind : List Stmt} {stop : Label} {s : Stmt}

namespace Stmt

theorem heightAll_append (ss ss' : List Stmt) : heightAll (ss ++ ss') = max (heightAll ss) (heightAll ss') := by
  induction ss with
  | nil => simp [heightAll]
  | cons s ss ih => simp only [List.cons_append, heightAll, ih, Nat.max_assoc]

theorem heightAll_of_enters {a : Int32} (h : Enters a ss before behind) : heightAll behind ≤ heightAll ss := by
  cases h with
  | case h | default _ h =>
    rw [h, heightAll_append, heightAll]
    omega
  | skip => exact Nat.zero_le _

end Stmt

namespace Activation

variable {A : Activation} {scope : Scope} {σ σ1 σ' : Store} {o : Outcome} {e : Expr} {opened span : Span}
  {ctx : Context} {b b' : Body} {code : Code} {pos : Nat} {stack : List Int32}

theorem Ends.ofSwitch {sub : Code} {pos' : Nat} (front back : Code) (hcode : code = front ++ sub ++ back)
    (hpos : pos' = pos + front.extent) (hstop : A.address stop = some (pos + code.extent))
    (hlead : A.Leads ⟨pos, stack, σ⟩ ⟨pos', stack, σ1⟩)
    (h : A.Ends { ctx with exit := some stop } sub pos' stack σ1 o σ')
    (hback : o = .normal → A.Leads ⟨pos' + sub.extent, stack, σ'⟩ ⟨pos + code.extent, stack, σ'⟩)
    : A.Ends ctx code pos stack σ o.ofSwitch σ' := by
  cases o with
  | normal => exact .of_leads ((hlead.trans h.leads).trans (hback rfl))
  | broke =>
    obtain ⟨pc, ⟨l, hl, haddress⟩, hsub⟩ := h
    cases hl
    cases hstop.symm.trans haddress
    exact .of_leads (hlead.trans hsub)
  | continued =>
    obtain ⟨pc, hpc, hsub⟩ := h
    exact ⟨pc, hpc, hlead.trans hsub⟩
  | returned v =>
    have hsub : A.Ends ctx sub pos' stack σ1 (.returned v) σ' := h.returned rfl rfl
    exact .within front back hcode hpos hlead hsub nofun

def switchFront (temp : Nat) (operand : Code) (dispatch : Label) : Code :=
  [.op (.access .handle .dword true) [.int temp]] ++ operand ++ [.op .store, .op .pop, .op .jmp [.label dispatch]]

def switchCode (temp : Nat) (operand body : Code) (sw : Cases) (dispatch stop : Label) : Code :=
  switchFront temp operand dispatch ++ body ++ [.op .jmp [.label stop], .label dispatch] ++ dispatchCode temp sw stop

theorem stands_switchCode {temp : Nat} {operand body : Code} {sw : Cases} {dispatch : Label}
    (h : A.Stands pos (switchCode temp operand body sw dispatch stop))
    : let start := pos + (switchFront temp operand dispatch).extent
      A.Stands pos (switchFront temp operand dispatch) ∧ A.Stands start body
        ∧ A.Stands (start + body.extent) [.op .jmp [.label stop]]
        ∧ A.address dispatch = some (start + body.extent + 4)
        ∧ A.Stands (start + body.extent + 4) (dispatchCode temp sw stop)
        ∧ A.address stop = some (pos + (switchCode temp operand body sw dispatch stop).extent) := by
  intro start
  unfold switchCode at h ⊢
  obtain ⟨hfront, hdispatch⟩ := stands_append.mp h
  obtain ⟨hfront, hjmp⟩ := stands_append.mp hfront
  obtain ⟨hfront, hbody⟩ := stands_append.mp hfront
  rw [Code.extent_append _ body, ← Nat.add_assoc] at hjmp
  rw [stands_cons_cons, stands_label, size_jmp] at hjmp
  have hstart : pos + Code.extent (switchFront temp operand dispatch ++ body
      ++ [.op .jmp [.label stop], .label dispatch]) = start + body.extent + 4 := by
    simp only [Code.extent_append, Code.extent_cons, Code.extent_nil, size_jmp, size_label, start]
    omega
  rw [hstart] at hdispatch
  refine ⟨hfront, hbody, hjmp.1, hjmp.2, hdispatch, ?_⟩
  rw [Code.extent_append _ (dispatchCode temp sw stop), ← Nat.add_assoc, hstart]
  -- the last line of the dispatch is the label behind the `switch`
  have hlast : dispatchCode temp sw stop = sw.cases.flatMap (testCode temp)
      ++ [.op .jmp [.label (sw.default.getD stop)]] ++ [.label stop] := by
    rw [List.append_assoc]
    rfl
  rw [hlast, stands_append] at hdispatch
  rw [hlast, Code.extent_append _ [_], Code.extent_cons, size_label]
  exact stands_label.mp hdispatch.2

theorem Setting.switch (h : A.Setting scope (.switch span opened e (.block ss)) ctx b code b' pos stack)
    : ∃ temp t c dispatch stop b1 b2, code = switchCode temp t c (b2.switch.getD {}) dispatch stop ∧ Spare A.ls temp
        ∧ (∀ σ, A.Does t ((slotHandle temp).encode :: stack, σ)
            ((e.eval scope σ).1 :: (slotHandle temp).encode :: stack, (e.eval scope σ).2))
        ∧ A.Knows scope { ctx with exit := some stop } b1 ∧ b1.switch = some {}
        ∧ Stmt.emitAll { ctx with exit := some stop } ss b1 = .ok (c, b2) ∧ Stmt.arePlain true scope ss
        ∧ b2.locals.Grows A.ls := by
  cases Stmt.emits _ h.emit with | @switch _ _ _ _ _ _ temp ls1 t ty b1 c b2 hclaim hcond hbody =>
  rw [Stmt.emit] at hbody
  have hplain := h.item.isPlain rfl nofun
  rw [Stmt.isPlain, Bool.and_eq_true] at hplain
  have hroom := h.room
  rw [Stmt.height] at hroom
  have hgrows1 : b1.locals.Grows A.ls := (Stmt.grows_all hbody :).trans h.grows
  have hlocals := hcond.onlyLabels.locals
  have hknows : A.Knows scope ctx { b with locals := ls1 } := by
    refine ⟨h.globals, (scopeOf_claim hclaim).trans h.names, ?_⟩
    exact h.built.grows (.claim hclaim .refl)
  have hwords := A.placed.unwrapped
  have hgrows0 : ls1.Grows A.ls := by rwa [hlocals] at hgrows1
  have hlaid := h.built.laid ((Locals.Grows.claim hclaim hgrows0).unwrapped hwords)
  have hspare : Spare A.ls temp := spare_of_claim hlaid hclaim hgrows0 hwords
  have hknows1 := hknows.loads hcond
  refine ⟨temp, t, c, _, _, { b1.skip 2 with switch := some {} }, b2, rfl, hspare, fun σ => ?_,
    ⟨hknows1.globals, hknows1.names, hknows1.built⟩, rfl, hbody, hplain.2, h.grows⟩
  exact hknows.does_loads hplain.1 hcond hgrows1 (by rw [List.length_cons]; omega)

theorem Knows.block (h : A.Knows scope ctx b) (hplain : Stmt.arePlain true scope ss)
    (hemit : Stmt.emitAll ctx ss b = .ok (code, b')) (hgrows : b'.locals.Grows A.ls) (hstands : A.Stands pos code)
    (hroom : stack.length + Stmt.heightAll ss ≤ A.m.stack.limit)
    : A.Setting scope (.block ss) ctx b code b' pos stack := by
  refine ⟨h, .block hplain, ?_, hgrows, hstands, ?_⟩
  · rw [Stmt.emit]
    exact hemit
  · rw [Stmt.height]
    exact hroom

theorem follows_switch (henters : Enters (e.eval scope σ).1 ss before behind)
    (hbehind : A.Follows (Stmt.behindAll scope before) (.block behind) (e.eval scope σ).2 o σ')
    : A.Follows scope (.switch span opened e (.block ss)) σ o.ofSwitch σ' := by
  intro ctx b code b' pos stack h
  obtain ⟨temp, t, c, dispatch, stop, b1, b2, rfl, hspare, hdoes, hknows, hsw, hbody, hplain, hgrows⟩ := h.switch
  have hplain1 := hplain
  rw [← hknows.names] at hplain1
  obtain ⟨sw, hsw2, hentry⟩ := exists_entry henters hbody hplain1 hsw
  rw [hsw2, Option.getD_some] at h ⊢
  obtain ⟨hsfront, hsbody, hsjmp, hdispatch, hsdispatch, hstop⟩ := stands_switchCode h.stands
  have hroom := h.room
  rw [Stmt.height, Stmt.height] at hroom
  have hpos := e.height_pos
  have hheight := Stmt.heightAll_of_enters henters
  have hspace : stack.length + Stmt.heightAll behind ≤ A.m.stack.limit := by omega
  obtain ⟨target, htarget, hlead⟩ := leads_enter hspare (by omega) (hdoes σ) hsfront hdispatch hsdispatch
  rcases hentry with ⟨rfl, rfl, hend⟩ | ⟨front, l, code1, b3, rfl, hlabel, hemit, hlocals, hscope, hplain3⟩
  · -- there is no label for the value, so control comes to the end
    rw [hend, hstop] at htarget
    cases htarget
    have hemitted := Stmt.emitted_all before hbody hplain1
    rw [hknows.names] at hemitted
    have hknows2 : A.Knows (Stmt.behindAll scope before) { ctx with exit := some stop } b2 :=
      ⟨hknows.globals, hemitted.scope, hknows.built.grows (Stmt.grows_all hbody)⟩
    have hemit : Stmt.emitAll { ctx with exit := some stop } [] b2 = .ok ([], b2) :=
      Stmt.emitAll_nil_eq_ok_iff.mpr rfl
    exact .ofSwitch _ [] (by simp) rfl hstop hlead (hbehind (hknows2.block rfl hemit hgrows trivial hspace))
      fun _ => .of_eq (by simp)
  · rw [hlabel] at htarget
    rw [stands_append, stands_append, stands_label, Code.extent_append, Code.extent_cons, size_label] at hsbody
    obtain ⟨⟨-, haddress⟩, hscode1⟩ := hsbody
    cases haddress.symm.trans htarget
    rw [hknows.names] at hscope
    rw [hscope] at hplain3
    have hknows3 : A.Knows (Stmt.behindAll scope before) { ctx with exit := some stop } b3 :=
      ⟨hknows.globals, hscope, hknows.built.grows hlocals⟩
    have hsetting := hknows3.block hplain3 hemit hgrows hscode1 hspace
    refine .ofSwitch (switchFront temp t dispatch ++ front ++ [.label l])
      ([.op .jmp [.label stop], .label dispatch] ++ dispatchCode temp sw stop) ?_ ?_ hstop hlead (hbehind hsetting)
      fun _ => ?_
    · simp [switchCode]
    · simp [size_label, Nat.add_assoc]
    · refine Walk.leads_jmp ?_ hstop
      simpa [size_label, Nat.add_assoc] using hsjmp

theorem follows_label (hs : s.isLabel) : A.Follows scope s σ .normal σ := by
  intro ctx b code b' pos stack h
  cases s.emits h.emit with
  | case | default => exact .of_leads (.refl _)
  | _ => cases hs

theorem follows_breakOut : A.Follows scope (.breakOut span) σ .broke σ := by
  intro ctx b code b' pos stack h
  cases Stmt.emits _ h.emit with | breakOut hl =>
  obtain ⟨target, -, htarget, -⟩ := h.stands.1 rfl
  exact ⟨target, ⟨_, hl, htarget⟩, Walk.leads_jmp h.stands htarget⟩

theorem follows_goOn : A.Follows scope (.goOn span) σ .continued σ := by
  intro ctx b code b' pos stack h
  cases Stmt.emits _ h.emit with | goOn hl =>
  obtain ⟨target, -, htarget, -⟩ := h.stands.1 rfl
  exact ⟨target, ⟨_, hl, htarget⟩, Walk.leads_jmp h.stands htarget⟩

theorem ends_epilogue (hroom : stack.length < A.m.stack.limit) (h : A.Stands pos (epilogue ctx)) :
    A.Ends ctx (epilogue ctx) pos stack σ (.returned none) σ := by
  cases hmain : ctx.main with
  | true =>
    have hcode : epilogue ctx = [] ++ [.op ctx.leave] ++ [] := by simp [epilogue, Context.leave, hmain]
    refine ⟨pos, ⟨[], [], hcode, rfl⟩, ?_⟩
    simp only [Context.pile, hmain, Bool.true_or, if_true]
    exact .refl _
  | false =>
    cases hvoid : ctx.ret.isVoid with
    | true =>
      have hcode : epilogue ctx = [] ++ [.op ctx.leave] ++ [] := by simp [epilogue, Context.leave, hmain, hvoid]
      refine ⟨pos, ⟨[], [], hcode, rfl⟩, ?_⟩
      simp only [Context.pile, hvoid, Bool.or_true, if_true]
      exact .refl _
    | false =>
      have hcode : epilogue ctx = [pushInt 0] ++ [.op ctx.leave] ++ [] := by
        simp [epilogue, Context.leave, hmain, hvoid]
      refine ⟨_, ⟨[pushInt 0], [], hcode, rfl⟩, ?_⟩
      rw [hcode, stands_append, stands_append] at h
      simp only [Context.pile, hmain, hvoid, Bool.or_false, Bool.false_eq_true, if_false, Option.getD_none]
      exact Walk.does_pushInt hroom 0 _ h.1.1

theorem follows_ret : A.Follows scope (.ret span none) σ (.returned none) σ := by
  intro ctx b code b' pos stack h
  cases Stmt.emits _ h.emit
  have hroom := h.room
  rw [Stmt.height] at hroom
  exact ends_epilogue hroom h.stands

theorem follows_retValue :
    A.Follows scope (.ret span (some e)) σ (.returned (some (e.eval scope σ).1)) (e.eval scope σ).2 := by
  intro ctx b code b' pos stack h
  have hplain := h.item.isPlain rfl fun _ => Stmt.noConfusion
  rw [Stmt.isPlain] at hplain
  have hroom := h.room
  rw [Stmt.height] at hroom
  have hpos := e.height_pos
  cases Stmt.emits _ h.emit with
  | @retEffect _ _ _ _ c _ hnone heffect =>
    -- the value of the expression is dropped
    obtain ⟨hsc, hsepilogue⟩ := stands_append.mp h.stands
    have hfree : stack.length < A.m.stack.limit := by omega
    obtain ⟨pc, hpc, hlead⟩ := ends_epilogue hfree hsepilogue
    have heffect : A.Leads ⟨pos, stack, σ⟩ _ := h.does_effect hplain heffect h.grows hroom _ hsc
    have hends : A.Ends ctx (epilogue ctx) (pos + c.extent) stack _ (.returned (some (e.eval scope σ).1)) _ :=
      ⟨pc, hpc, by simpa only [Context.pile, hnone, if_true] using hlead⟩
    exact .within c [] (by simp) rfl heffect hends Outcome.noConfusion
  | @retValue _ _ _ _ c _ _ hsome hload =>
    obtain ⟨hsc, -⟩ := stands_append.mp h.stands
    have hmain : ctx.main = false := (Bool.or_eq_false_iff.mp hsome).1
    refine ⟨_, ⟨c, [], by simp [Context.leave, hmain], rfl⟩, ?_⟩
    simp only [Context.pile, hsome, Option.getD_some]
    exact h.does_loads hplain hload h.grows hroom _ hsc

theorem follows_of_exec (h : Exec scope s σ o σ') : A.Follows scope s σ o σ' := by
  induction h with
  | empty => exact follows_empty
  | nil => exact follows_nil
  | cons _ _ ih ihrest => exact follows_cons ih ihrest
  | abrupt _ ho ih => exact follows_abrupt ih ho
  | expr => exact follows_expr
  | declare => exact follows_declare
  | ifThen he _ ih => exact follows_ifThen he ih
  | ifSkip he => exact follows_ifSkip he
  | ifYes he _ ih => exact follows_ifYes he ih
  | ifNo he _ ih => exact follows_ifNo he ih
  | whileStop he => exact fun h => h.whileLoop.stop he
  | whileLeave he _ ho ih => exact fun h => h.whileLoop.leave he ih ho
  | whileAgain he _ ho _ ih ihagain => exact fun h => h.whileLoop.again he ih ho (ihagain h)
  | doLeave _ ho ih => exact follows_doLeave ih ho
  | doStop _ ho he ih => exact follows_doStop ih ho he
  | doAgain _ ho he _ ih ihagain => exact follows_doAgain ih ho he ihagain
  | forInit _ _ ih ihloop => exact follows_forInit ih ihloop
  | forStop hcond => exact fun h => h.forLoop.stop hcond
  | forLeave hcond _ ho ih => exact fun h => h.forLoop.leave hcond ih ho
  | forAgain hcond _ ho _ ih ihagain => exact fun h => h.forLoop.again hcond ih ho (ihagain h)
  | switch henters _ ih => exact follows_switch henters ih
  | case | default => exact follows_label rfl
  | breakOut => exact follows_breakOut
  | goOn => exact follows_goOn
  | ret => exact follows_ret
  | retValue => exact follows_retValue

end Activation
end Handheld.Source
