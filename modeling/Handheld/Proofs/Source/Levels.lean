import Handheld.Proofs.Source.Depth
import Handheld.Proofs.Source.Locals

/-!
Statements start and end at depth zero, so the code of every function is balanced.
-/
namespace Handheld.Source

open Asm

section Unique

variable {ctx : Context} {opened : Span} {b b1 b2 : Body} {code code' : Code} {ty ty' : Ty}

theorem Expr.Loads.unique {e : Expr} (h : e.Loads ctx opened b code ty b1) (h' : e.Loads ctx opened b code' ty' b2)
    : code = code' ∧ b1 = b2 := by
  obtain ⟨c, p, c', hemit, hload, rfl⟩ := h
  obtain ⟨c1, p1, c1', hemit', hload', rfl⟩ := h'
  cases hemit.symm.trans hemit'
  cases hload.symm.trans hload'
  exact ⟨rfl, rfl⟩

theorem Stmt.Tests.unique {cond : Option Expr} {stop : Label}
    (h : Stmt.Tests ctx opened cond stop b code b1) (h' : Stmt.Tests ctx opened cond stop b code' b2)
    : code = code' ∧ b1 = b2 := by
  cases cond with
  | none =>
    obtain ⟨rfl, rfl⟩ := h
    obtain ⟨rfl, rfl⟩ := h'
    exact ⟨rfl, rfl⟩
  | some cond =>
    obtain ⟨c, ty, hcode, rfl⟩ := h
    obtain ⟨c', ty', hcode', rfl⟩ := h'
    obtain ⟨rfl, rfl⟩ := hcode.unique hcode'
    exact ⟨rfl, rfl⟩

theorem Stmt.Steps.unique {step : Option Expr} (h : Stmt.Steps ctx step b code b1) (h' : Stmt.Steps ctx step b code' b2)
    : code = code' ∧ b1 = b2 := by
  cases step with
  | none =>
    obtain ⟨rfl, rfl⟩ := h
    obtain ⟨rfl, rfl⟩ := h'
    exact ⟨rfl, rfl⟩
  | some step =>
    cases (Eq.symm h).trans h'
    exact ⟨rfl, rfl⟩

end Unique

inductive Stmt.Starts : Context → Body → Stmt → Nat → Prop where
  | here {ctx : Context} {b : Body} {s : Stmt} : Starts ctx b s 0
  | block {ctx : Context} {b b1 : Body} {ss ss' : List Stmt} {s : Stmt} {code : Code} {i : Nat}
    (hfront : Stmt.emitAll ctx ss b = .ok (code, b1)) (h : Starts ctx b1 s i) :
    Starts ctx b (.block (ss ++ s :: ss')) (code.length + i)
  | ifThen {ctx : Context} {b b1 : Body} {opened : Span} {cond : Expr} {yes : Stmt} {code : Code}
    {ty : Ty} {i : Nat} (hcond : cond.Loads ctx opened b code ty b1) (h : Starts ctx (b1.skip 1) yes i) :
    Starts ctx b (.ifThen opened cond yes) (code.length + 1 + i)
  | ifElseYes {ctx : Context} {b b1 : Body} {opened : Span} {cond : Expr} {yes no : Stmt} {code : Code}
    {ty : Ty} {i : Nat} (hcond : cond.Loads ctx opened b code ty b1) (h : Starts ctx (b1.skip 1) yes i) :
    Starts ctx b (.ifElse opened cond yes no) (code.length + 1 + i)
  | ifElseNo {ctx : Context} {b b1 b2 : Body} {opened : Span} {cond : Expr} {yes no : Stmt}
    {code y : Code} {ty : Ty} {i : Nat} (hcond : cond.Loads ctx opened b code ty b1)
    (hyes : yes.emit ctx (b1.skip 1) = .ok (y, b2)) (h : Starts ctx (b2.skip 1) no i) :
    Starts ctx b (.ifElse opened cond yes no) (code.length + 1 + y.length + 2 + i)
  | whileLoop {ctx : Context} {b b1 : Body} {opened : Span} {cond : Expr} {body : Stmt} {code : Code}
    {ty : Ty} {i : Nat} (hcond : cond.Loads ctx opened (b.skip 2) code ty b1)
    (h : Starts { ctx with
      exit := some (.fresh (b.labels + 2)), next := some (.fresh (b.labels + 1)) } b1 body i) :
    Starts ctx b (.whileLoop opened cond body) (1 + code.length + 1 + i)
  | doLoop {ctx : Context} {b : Body} {opened : Span} {cond : Expr} {body : Stmt} {i : Nat}
    (h : Starts { ctx with
      exit := some (.fresh (b.labels + 3)), next := some (.fresh (b.labels + 2)) } (b.skip 3) body i) :
    Starts ctx b (.doLoop body opened cond) (1 + i)
  | forInit {ctx : Context} {b : Body} {opened : Span} {init body : Stmt} {cond step : Option Expr}
    {i : Nat} (h : Starts ctx b init i) :
    Starts ctx b (.forLoop opened init cond step body) i
  | forBody {ctx : Context} {b b1 b2 b3 : Body} {opened : Span} {init body : Stmt}
    {cond step : Option Expr} {c t n : Code} {i : Nat} (hinit : init.emit ctx b = .ok (c, b1))
    (htest : Stmt.Tests ctx opened cond (.fresh (b1.labels + 3)) (b1.skip 3) t b2)
    (hstep : Stmt.Steps ctx step b2 n b3)
    (h : Starts { ctx with
      exit := some (.fresh (b1.labels + 3)), next := some (.fresh (b1.labels + 2)) } b3 body i) :
    Starts ctx b (.forLoop opened init cond step body) (c.length + 1 + t.length + i)
  | switch {ctx : Context} {b b1 : Body} {span opened : Span} {cond : Expr} {body : Stmt} {temp : Nat}
    {ls : Locals} {code : Code} {ty : Ty} {i : Nat} (htemp : b.locals.claim 4 span = .ok (temp, ls))
    (hcond : cond.Loads ctx opened { b with locals := ls } code ty b1)
    (h : Starts { ctx with exit := some (.fresh (b1.labels + 2)) }
      { b1.skip 2 with switch := some {} } body i) :
    Starts ctx b (.switch span opened cond body) (1 + code.length + 3 + i)

def Levels (functions : Functions) (Δ : Depths) (result : Nat) (code : Code) (starts : Nat → Prop) :
    Prop :=
  ∃ ds, Fits functions Δ result 0 code ds 0 ∧ ∀ i, starts i → (ds ++ [0])[i]? = some 0

section Levels

variable {functions : Functions} {Δ : Depths} {result : Nat} {starts starts' : Nat → Prop}

theorem Levels.of_goes {code : Code} (h : Goes functions Δ result 0 code 0) :
    Levels functions Δ result code (· = 0) := by
  obtain ⟨ds, hds⟩ := h
  refine ⟨ds, hds, ?_⟩
  rintro i rfl
  exact hds.head?_eq

theorem Levels.mono {code : Code} (h : Levels functions Δ result code starts) (hstarts : ∀ i, starts' i → starts i)
    : Levels functions Δ result code starts' := by
  obtain ⟨ds, hds, hzero⟩ := h
  exact ⟨ds, hds, fun i hi => hzero i (hstarts i hi)⟩

theorem Levels.extend {a b : Code} {ds' : List Nat} {d' : Nat}
    (ha : Levels functions Δ result a starts) (hb : Fits functions Δ result 0 b ds' d')
    : ∃ ds, Fits functions Δ result 0 (a ++ b) (ds ++ ds') d' ∧ ds.length = a.length
        ∧ ∀ i, starts i → i ≤ a.length ∧ (ds ++ ds' ++ [d'])[i]? = some 0 := by
  obtain ⟨ds, hds, hzero⟩ := ha
  refine ⟨ds, hds.append hb, hds.length_eq, ?_⟩
  intro i hi
  have hi' := hzero i hi
  have hlt := (List.getElem?_eq_some_iff.mp hi').1
  rw [List.length_append, List.length_singleton, hds.length_eq] at hlt
  refine ⟨Nat.le_of_lt_succ hlt, ?_⟩
  rw [List.append_assoc]
  by_cases hlt : i < ds.length
  · rwa [List.getElem?_append_left hlt] at hi' ⊢
  · rw [List.getElem?_append_right (by omega)] at hi' ⊢
    have hzero : i - ds.length = 0 := by simpa using (List.getElem?_eq_some_iff.mp hi').1
    rw [hzero]
    exact hb.head?_eq

theorem Levels.append {a b : Code} (ha : Levels functions Δ result a starts) (hb : Levels functions Δ result b starts')
    : Levels functions Δ result (a ++ b) fun i => starts i ∨ ∃ j, starts' j ∧ i = a.length + j := by
  obtain ⟨ds', hds', hzero'⟩ := hb
  obtain ⟨ds, hds, hlength, hzero⟩ := ha.extend hds'
  refine ⟨ds ++ ds', hds, ?_⟩
  rintro i (hi | ⟨j, hj, rfl⟩)
  · exact (hzero i hi).2
  · rw [List.append_assoc, List.getElem?_append_right (by omega), hlength, Nat.add_sub_cancel_left]
    exact hzero' j hj

theorem Levels.append_goes {a b : Code} (ha : Levels functions Δ result a starts) (hb : Goes functions Δ result 0 b 0)
    : Levels functions Δ result (a ++ b) starts :=
  (ha.append (.of_goes hb)).mono fun _ => .inl

end Levels

def Context.results (ctx : Context) : Nat :=
  if ctx.ret.isVoid then 0 else 1

structure Context.Leaves (ctx : Context) (Δ : Depths) : Prop where
  exit : ∀ l, ctx.exit = some l → Δ l = some 0
  next : ∀ l, ctx.next = some l → Δ l = some 0

def Cases.Level (sw : Option Cases) (Δ : Depths) : Prop :=
  (∀ value label, (value, label) ∈ (sw.getD {}).cases → Δ label = some 0)
    ∧ ∀ label, (sw.getD {}).default = some label → Δ label = some 0

theorem Cases.level_empty (Δ : Depths) : Cases.Level (some {}) Δ := by
  constructor
  · intro value label h
    cases h
  · intro label h
    cases h

def Leveled (ctx : Context) (b : Body) (code : Code) (starts : Nat → Prop) (b' : Body) : Prop :=
  Assignable b.labels b'.labels fun Δ => ctx.Leaves Δ → Cases.Level b.switch Δ →
    Levels ctx.globals.functions Δ ctx.results code starts ∧ Cases.Level b'.switch Δ

section Leveled

variable {ctx : Context} {b b' : Body} {code : Code} {base : Base} {starts starts' : Nat → Prop}

theorem Leveled.of_segment
    (h : Segment ctx.globals.functions ctx.results b.labels b'.labels 0 code 0) (hswitch : b'.switch = b.switch)
    : Leveled ctx b code (· = 0) b' :=
  Assignable.mono h fun _ hcode _ hcases => ⟨.of_goes hcode, hswitch ▸ hcases⟩

theorem Leveled.mono (h : Leveled ctx b code starts b') (hstarts : ∀ i, starts' i → starts i) :
    Leveled ctx b code starts' b' :=
  Assignable.mono h fun _ hcode hleaves hcases => ⟨(hcode hleaves hcases).1.mono hstarts, (hcode hleaves hcases).2⟩

theorem segment_effect {e : Expr} (h : e.emitEffect ctx b = .ok (code, b')) (result : Nat) :
    Segment ctx.globals.functions result b.labels b'.labels 0 code 0 := by
  obtain ⟨code, place, b1, hcode, heq⟩ := Expr.emitEffect_eq_ok_iff.mp h
  cases heq
  exact (e.segmented ctx result _ _ _ _ hcode 0).append_goes fun Δ => goes_discard place

theorem segment_value {e : Expr} {span : Span} {ty : Ty} (h : e.Loads ctx span b code ty b') (result d : Nat)
    : Segment ctx.globals.functions result b.labels b'.labels d code (d + 1) :=
  ((e.segmented ctx result).values h).segment

theorem segment_storeCode {functions : Functions} {result lo hi : Nat} {v : Var} {value : Code}
    (h : Segment functions result lo hi 1 value 2)
    : Segment functions result lo hi 0 (storeCode v value) 0 := by
  refine .append_goes (.append (.of_goes fun Δ => ?_) h) fun Δ => ?_
  · exact .access rfl rfl .nil
  · exact .op rfl rfl rfl (.op rfl rfl rfl .nil)

theorem segment_elements {xs : List Element} {values : List Code} {v : Var} {result : Nat}
    (h : emitElements ctx xs b = .ok (values, b')) (k : Nat)
    : Segment ctx.globals.functions result b.labels b'.labels 0
        ((values.zipIdx k).flatMap fun (code, i) =>
          storeCode { v with offset := (v.offset + i * v.ty.size) % 0x10000, dims := [] } code) 0 := by
  induction xs generalizing b values k with
  | nil =>
    cases h
    exact .of_goes fun Δ => .nil
  | cons x xs ih =>
    obtain ⟨code, ty, b1, hcode, values, b2, hvalues, heq⟩ := emitElements_cons_eq_ok_iff.mp h
    cases heq
    rw [List.zipIdx_cons, List.flatMap_cons]
    exact (segment_storeCode (segment_value hcode result 1)).append (ih hvalues (k + 1))

theorem Declared.segment {d : Declared} (h : d.emit ctx base b = .ok (code, b')) (result : Nat) :
    Segment ctx.globals.functions result b.labels b'.labels 0 code 0 := by
  cases d with
  | missing e => exact (emit_missing_eq_ok_iff.mp h).elim
  | function d => exact (emit_function_eq_ok_iff.mp h).elim
  | plain d =>
    obtain ⟨-, dims, -, v, ls, -, heq⟩ := emit_plain_eq_ok_iff.mp h
    cases heq
    exact .of_goes fun Δ => .nil
  | scalar d value =>
    obtain ⟨-, v, ls, -, code, ty, b1, hcode, heq⟩ := emit_scalar_eq_ok_iff.mp h
    cases heq
    exact segment_storeCode (segment_value hcode result 1)
  | text d bytes =>
    obtain ⟨-, -, dims, -, v, ls, -, -, heq⟩ := emit_text_eq_ok_iff.mp h
    cases heq
    have hcall := fun Δ =>
      @Passes.library ctx.globals.functions Δ result 0 .strcpy rfl
    exact .of_goes fun Δ => .pushInt (.access rfl rfl (.op rfl rfl rfl (.cons (hcall Δ) .nil)))
  | list d elements =>
    obtain ⟨-, values, b1, hvalues, dims, -, v, ls, -, -, heq⟩ := emit_list_eq_ok_iff.mp h
    cases heq
    exact segment_elements hvalues 0

theorem segment_declared {ds : List Declared} (h : emitDeclared ctx base ds b = .ok (code, b')) (result : Nat)
    : Segment ctx.globals.functions result b.labels b'.labels 0 code 0 := by
  induction ds generalizing b code with
  | nil =>
    cases h
    exact .of_goes fun Δ => .nil
  | cons d ds ih =>
    obtain ⟨code1, b1, h1, code2, b2, h2, heq⟩ := emitDeclared_cons_eq_ok_iff.mp h
    cases heq
    exact (Declared.segment h1 result).append (ih h2)

theorem goes_epilogue {functions : Functions} {Δ : Depths} (ctx : Context) :
    Goes functions Δ ctx.results 0 (epilogue ctx) 0 := by
  unfold epilogue
  split
  next => exact .cons .exit .nil
  next =>
    unfold Context.results
    split
    next => exact .cons .ret .nil
    next => exact .pushInt (.cons .ret .nil)

theorem goes_dispatchCode {functions : Functions} {Δ : Depths} {result temp : Nat}
    {sw : Option Cases} {n : Nat} (hcases : Cases.Level sw Δ) (hstop : Δ (.fresh n) = some 0)
    : Goes functions Δ result 0 (dispatchCode temp (sw.getD {}) (.fresh n)) 0 := by
  obtain ⟨hlabels, hdefault⟩ := hcases
  unfold dispatchCode
  refine Goes.append ?_ (.cons (.jmp (d := 0) ?_) (.cons (.label hstop) .nil))
  · generalize (sw.getD {}).cases = cases at hlabels
    induction cases with
    | nil => exact .nil
    | cons c cases ih =>
      rw [List.flatMap_cons]
      have hc := hlabels c.1 c.2 (by simp)
      refine .append (.op rfl rfl rfl (.pushInt (.op rfl rfl rfl (.cons (.jnz hc) .nil)))) (ih ?_)
      intro value label hmem
      exact hlabels value label (by simp [hmem])
  · cases hd : (sw.getD {}).default with
    | none => exact hstop
    | some l => exact hdefault l hd

theorem Stmt.Tests.assignable {opened : Span} {cond : Option Expr} {stop : Label}
    (h : Stmt.Tests ctx opened cond stop b code b') (result : Nat)
    : Assignable b.labels b'.labels fun Δ => Δ stop = some 0 →
        Goes ctx.globals.functions Δ result 0 code 0 := by
  cases cond with
  | none =>
    obtain ⟨rfl, rfl⟩ := h
    exact .of_forall fun Δ _ => .nil
  | some cond =>
    obtain ⟨c, ty, hcode, rfl⟩ := h
    exact Assignable.mono (segment_value hcode result 0) fun Δ hc hstop =>
      hc.append (.cons (.jz hstop) .nil)

theorem Stmt.Steps.segment {step : Option Expr} (h : Stmt.Steps ctx step b code b') (result : Nat) :
    Segment ctx.globals.functions result b.labels b'.labels 0 code 0 := by
  cases step with
  | none =>
    obtain ⟨rfl, rfl⟩ := h
    exact .of_goes fun Δ => .nil
  | some step => exact segment_effect h result

end Leveled

namespace Stmt

variable {ctx : Context} {b b1 b' : Body} {s : Stmt} {code c1 c2 : Code}

theorem leveled_single (hs : s matches .empty | .block [] | .expr _ | .declare _ _ | .breakOut _ | .goOn _ | .ret _ _)
    (h : Leveled ctx b code (· = 0) b')
    : Leveled ctx b code (s.Starts ctx b) b' := by
  refine h.mono fun i hi => ?_
  cases hi with
  | here => rfl
  | @block _ _ _ front => cases front <;> cases hs
  | _ => cases hs

theorem leveled_cons {ss : List Stmt} (h1 : s.emit ctx b = .ok (c1, b1)) (hs : Leveled ctx b c1 (s.Starts ctx b) b1)
    (hss : Leveled ctx b1 c2 ((block ss).Starts ctx b1) b')
    : Leveled ctx b (c1 ++ c2) ((block (s :: ss)).Starts ctx b) b' := by
  refine (hs.and hss).mono ?_
  rintro Δ ⟨hcode1, hcode2⟩ hleaves hcases
  obtain ⟨hlevels1, hcases1⟩ := hcode1 hleaves hcases
  obtain ⟨hlevels2, hcases2⟩ := hcode2 hleaves hcases1
  refine ⟨(hlevels1.append hlevels2).mono fun i hi => ?_, hcases2⟩
  generalize hblock : block (s :: ss) = t at hi
  cases hi with
  | here => exact .inl .here
  | @block _ _ _ front _ _ _ _ hfront hstart =>
    cases front with
    | nil =>
      cases emitAll_nil_eq_ok_iff.mp hfront
      cases hblock
      rw [List.length_nil, Nat.zero_add]
      exact .inl hstart
    | cons s' front =>
      cases hblock
      obtain ⟨_, _, h1', _, _, h2', heq⟩ := emitAll_cons_eq_ok_iff.mp hfront
      cases heq
      cases h1.symm.trans h1'
      exact .inr ⟨_, .block h2' hstart, by rw [List.length_append, Nat.add_assoc]⟩
  | _ => cases hblock

theorem leveled_jump {l : Label} (h : ∀ Δ, ctx.Leaves Δ → Δ l = some 0) :
    Leveled ctx b [.op .jmp [.label l]] (· = 0) b :=
  Assignable.of_forall fun Δ hleaves hcases => ⟨.of_goes (.cons (.jmp (h Δ hleaves)) .nil), hcases⟩

theorem Emits.leveled (h : Emits ctx b s code b') : Leveled ctx b code (s.Starts ctx b) b' := by
  induction h with
  | empty | nil => exact leveled_single rfl (.of_segment (.of_goes fun Δ => .nil) rfl)
  | cons h1 _ _ _ ih ih' => exact leveled_cons h1 ih ih'
  | expr h => exact leveled_single rfl (.of_segment (segment_effect h _) (onlyLabels_effect h).switch)
  | declare h => exact leveled_single rfl (.of_segment (segment_declared h _) (onlyGrows_declared h).switch)
  | breakOut h => exact leveled_single rfl (leveled_jump fun Δ hleaves => hleaves.exit _ h)
  | goOn h => exact leveled_single rfl (leveled_jump fun Δ hleaves => hleaves.next _ h)
  | ret => exact leveled_single rfl (.of_segment (.of_goes fun Δ => goes_epilogue _) rfl)
  | retEffect _ h =>
    refine leveled_single rfl (.of_segment ?_ (onlyLabels_effect h).switch)
    exact (segment_effect h _).append_goes fun Δ => goes_epilogue _
  | @retValue ctx _ _ _ _ _ _ hsome h =>
    have hresults : ctx.results = 1 := by
      rw [Bool.or_eq_false_iff] at hsome
      simp [Context.results, hsome.2]
    refine leveled_single rfl (.of_segment ((segment_value h _ 0).append_goes fun Δ => ?_) h.onlyLabels.switch)
    rw [hresults]
    exact .cons .ret .nil
  | @ifThen ctx b _ _ _ _ _ b1 _ _ hcond _ _ ih =>
    have hc := segment_value hcond ctx.results 0
    have hswitch : (b1.skip 1).switch = b.switch := hcond.onlyLabels.switch
    refine (hc.and ((Assignable.fresh b1.labels 0).and ih)).mono ?_
    rintro Δ ⟨hcode, hother, hyes⟩ hleaves hcases
    obtain ⟨hlevels, hcases'⟩ := hyes hleaves (hswitch ▸ hcases)
    refine ⟨(((Levels.of_goes (hcode.append (.cons (.jz hother) .nil))).append hlevels).append_goes
      (.cons (.label hother) .nil)).mono fun i hi => ?_, hcases'⟩
    cases hi with
    | here => exact .inl rfl
    | ifThen hcond' hstart =>
      obtain ⟨rfl, rfl⟩ := hcond.unique hcond'
      exact .inr ⟨_, hstart, by grind⟩
  | @ifElse ctx b _ _ _ _ _ _ b1 _ b2 _ _ hcond h1 _ _ _ ih ih' =>
    have hc := segment_value hcond ctx.results 0
    have hswitch : (b1.skip 1).switch = b.switch := hcond.onlyLabels.switch
    refine (hc.and ((Assignable.fresh b1.labels 0).and (ih.and ((Assignable.fresh b2.labels 0).and ih')))).mono ?_
    rintro Δ ⟨hcode, hother, hyes, hstop, hno⟩ hleaves hcases
    obtain ⟨hlevels, hcases1⟩ := hyes hleaves (hswitch ▸ hcases)
    obtain ⟨hlevels', hcases'⟩ := hno hleaves hcases1
    refine ⟨(((((Levels.of_goes (hcode.append (.cons (.jz hother) .nil))).append hlevels).append_goes
      (.cons (.jmp hstop) (.cons (.label hother) .nil))).append hlevels').append_goes
      (.cons (.label hstop) .nil)).mono fun i hi => ?_, hcases'⟩
    cases hi with
    | here => exact .inl (.inl rfl)
    | ifElseYes hcond' hstart =>
      obtain ⟨rfl, rfl⟩ := hcond.unique hcond'
      exact .inl (.inr ⟨_, hstart, by grind⟩)
    | ifElseNo hcond' hyes' hstart =>
      obtain ⟨rfl, rfl⟩ := hcond.unique hcond'
      cases h1.symm.trans hyes'
      exact .inr ⟨_, hstart, by grind⟩
  | @whileLoop ctx b _ _ _ _ _ b1 _ _ hcond _ _ ih =>
    have hc := segment_value hcond ctx.results 0
    have hswitch : b1.switch = b.switch := hcond.onlyLabels.switch
    refine ((Assignable.fresh b.labels 0).and ((Assignable.fresh (b.labels + 1) 0).and (hc.and ih))).mono ?_
    rintro Δ ⟨htop, hstop, hcode, hbody⟩ hleaves hcases
    obtain ⟨hlevels, hcases'⟩ := hbody ⟨by rintro l ⟨⟩; exact hstop, by rintro l ⟨⟩; exact htop⟩ (hswitch ▸ hcases)
    refine ⟨(((Levels.of_goes ((Goes.cons (.label htop) .nil).append (hcode.append
      (.cons (.jz hstop) .nil)))).append hlevels).append_goes
      (.cons (.jmp htop) (.cons (.label hstop) .nil))).mono fun i hi => ?_, hcases'⟩
    cases hi with
    | here => exact .inl rfl
    | whileLoop hcond' hstart =>
      obtain ⟨rfl, rfl⟩ := hcond.unique hcond'
      exact .inr ⟨_, hstart, by grind⟩
  | @doLoop ctx b _ _ _ c b1 _ _ b' _ _ hcond ih =>
    have hc := segment_value hcond ctx.results 0
    have hswitch : b'.switch = b1.switch := hcond.onlyLabels.switch
    refine ((Assignable.fresh b.labels 0).and ((Assignable.fresh (b.labels + 1) 0).and
      ((Assignable.fresh (b.labels + 2) 0).and (ih.and hc)))).mono ?_
    rintro Δ ⟨htop, hnext, hstop, hbody, hcode⟩ hleaves hcases
    obtain ⟨hlevels, hcases'⟩ := hbody ⟨by rintro l ⟨⟩; exact hstop, by rintro l ⟨⟩; exact hnext⟩ hcases
    rw [List.append_assoc _ _ [_, _]]
    refine ⟨((((Levels.of_goes (.cons (.label htop) .nil)).append hlevels).append_goes
      (.cons (.label hnext) .nil)).append_goes (hcode.append (.cons (.jnz htop)
      (.cons (.label hstop) .nil)))).mono fun i hi => ?_, hswitch ▸ hcases'⟩
    cases hi with
    | here => exact .inl rfl
    | doLoop hstart => exact .inr ⟨_, hstart, rfl⟩
  | @forLoop ctx b _ _ _ _ _ _ b1 _ b2 _ b3 _ _ h1 htest hstep _ _ _ ih ih' =>
    have hn := hstep.segment ctx.results
    have hswitch : b3.switch = b1.switch := (htest.onlyLabels.trans hstep.onlyLabels).switch
    refine (ih.and ((Assignable.fresh b1.labels 0).and ((Assignable.fresh (b1.labels + 1) 0).and
      ((Assignable.fresh (b1.labels + 2) 0).and ((htest.assignable ctx.results).and (hn.and ih')))))).mono ?_
    rintro Δ ⟨hinit, htop, hnext, hstop, htest', hstep', hbody⟩ hleaves hcases
    obtain ⟨hlevels, hcases1⟩ := hinit hleaves hcases
    obtain ⟨hlevels', hcases'⟩ := hbody ⟨by rintro l ⟨⟩; exact hstop, by rintro l ⟨⟩; exact hnext⟩ (hswitch ▸ hcases1)
    refine ⟨((((((hlevels.append_goes (.cons (.label htop) .nil)).append_goes (htest' hstop)).append
      hlevels').append_goes (.cons (.label hnext) .nil)).append_goes hstep').append_goes
      (.cons (.jmp htop) (.cons (.label hstop) .nil))).mono fun i hi => ?_, hcases'⟩
    cases hi with
    | here => exact .inl .here
    | forInit hstart => exact .inl hstart
    | forBody hinit' htest' hstep' hstart =>
      cases h1.symm.trans hinit'
      obtain ⟨rfl, rfl⟩ := htest.unique htest'
      obtain ⟨rfl, rfl⟩ := hstep.unique hstep'
      exact .inr ⟨_, hstart, by grind⟩
  | @switch ctx b _ _ _ _ temp _ _ _ b1 _ _ htemp hcond _ _ ih =>
    have hc := segment_value hcond ctx.results 1
    have hswitch : b1.switch = b.switch := hcond.onlyLabels.switch
    refine (hc.and ((Assignable.fresh b1.labels 0).and ((Assignable.fresh (b1.labels + 1) 0).and ih))).mono ?_
    rintro Δ ⟨hcode, hdispatch, hstop, hbody⟩ hleaves hcases
    obtain ⟨hlevels, hcases'⟩ := hbody ⟨by rintro l ⟨⟩; exact hstop, hleaves.next⟩ (Cases.level_empty Δ)
    have hhandle : Goes ctx.globals.functions Δ ctx.results 0 [.op (.access .handle .dword true) [.int temp]] 1 :=
      .op rfl rfl rfl .nil
    have hstore : Goes ctx.globals.functions Δ ctx.results 2
        [.op .store, .op .pop, .op .jmp [.label (.fresh (b1.labels + 1))]] 0 :=
      .op rfl rfl rfl (.op rfl rfl rfl (.cons (.jmp hdispatch) .nil))
    refine ⟨((((Levels.of_goes ((hhandle.append hcode).append hstore)).append hlevels).append_goes
      (.cons (.jmp hstop) (.cons (.label hdispatch) .nil))).append_goes
      (goes_dispatchCode hcases' hstop)).mono fun i hi => ?_, hswitch ▸ hcases⟩
    cases hi with
    | here => exact .inl rfl
    | switch htemp' hcond' hstart =>
      cases htemp.symm.trans htemp'
      obtain ⟨rfl, rfl⟩ := hcond.unique hcond'
      exact .inr ⟨_, hstart, by grind⟩
  | @case ctx b _ _ _ hsw =>
    refine (Assignable.fresh b.labels 0).mono fun Δ hlabel _ hcases => ?_
    rw [hsw] at hcases
    refine ⟨(Levels.of_goes (.cons (.label hlabel) .nil)).mono fun i hi => ?_, fun value label hmem => ?_, hcases.2⟩
    · cases hi
      rfl
    · simp only [Option.getD_some, List.mem_append, List.mem_singleton, Prod.mk.injEq] at hmem
      obtain hmem | ⟨-, rfl⟩ := hmem
      · exact hcases.1 value label hmem
      · exact hlabel
  | @default ctx b _ _ hsw =>
    refine (Assignable.fresh b.labels 0).mono fun Δ hlabel _ hcases => ?_
    rw [hsw] at hcases
    refine ⟨(Levels.of_goes (.cons (.label hlabel) .nil)).mono fun i hi => ?_, hcases.1, ?_⟩
    · cases hi
      rfl
    · rintro label ⟨⟩
      exact hlabel

end Stmt

end Handheld.Source
