import Handheld.Proofs.Source.Levels
import Handheld.Proofs.Source.Sealing

/-!
Compiled programs are balanced: every line of every function has a depth of the value stack that does not depend on
the way to it.
-/
namespace Handheld.Source

open Asm

variable {params : List Param} {hi : Nat} {source : String}

variable {g : Globals} {labels : Nat} {f : TopLevel} {fs : List TopLevel} {code : Code}

namespace TopLevel

inductive Starts (g : Globals) : Nat → List TopLevel → Nat → Prop where
  | body {labels i : Nat} {name : String} {ret : Ty} {params : List Param} {body : Stmt}
    {fs : List TopLevel} {locals : Locals} (hparams : addParams params {} = .ok locals)
    (h : body.Starts { globals := g, ret := ret, main := name == "main" }
      { labels := labels, locals := locals } i) :
    Starts g labels (.function name ret params body :: fs) (2 + i)
  | behind {labels labels' i : Nat} {f : TopLevel} {fs : List TopLevel} {code : Code}
    (hf : f.emit g labels = .ok (code, labels')) (h : Starts g labels' fs i) :
    Starts g labels (f :: fs) (code.length + i)

def Agrees (g : Globals) : TopLevel → Prop
  | .missing _ => True
  | .function name ret params _ =>
    ∃ f ∈ g.functions.lookup name, f.ret = ret ∧ f.params = params.length

instance (g : Globals) : DecidablePred (Agrees g)
  | .missing _ => inferInstanceAs (Decidable True)
  | .function name ret params _ =>
    inferInstanceAs (Decidable (∃ f ∈ g.functions.lookup name, f.ret = ret ∧ f.params = params.length))

variable {r : Code × Nat}

theorem emit_missing_eq_ok_iff {e : Error} : (TopLevel.missing e).emit g labels = .ok r ↔ False := by
  simp [TopLevel.emit]

theorem emit_function_eq_ok_iff {name : String} {ret : Ty} {body : Stmt} :
    (TopLevel.function name ret params body).emit g labels = .ok r
      ↔ ∃ locals, addParams params {} = .ok locals
        ∧ ∃ code b, body.emit { globals := g, ret := ret, main := name == "main" }
              { labels := labels, locals := locals } = .ok (code, b)
          ∧ ([.label (.named name), .op .func [.int b.locals.size, .int b.locals.params]] ++ code
              ++ epilogue { globals := g, ret := ret, main := name == "main" }, b.labels) = r := by
  simp only [TopLevel.emit, StateT.run, Except.bind_eq_ok_iff, Except.pure_eq_ok_iff, Prod.exists]

end TopLevel

theorem emitFunctions_cons_eq_ok_iff
    : emitFunctions g labels (f :: fs) = .ok code
        ↔ ∃ code1 labels1, f.emit g labels = .ok (code1, labels1)
          ∧ ∃ code2, emitFunctions g labels1 fs = .ok code2 ∧ code1 ++ code2 = code := by
  simp only [emitFunctions, Except.bind_eq_ok_iff, Except.pure_eq_ok_iff, Prod.exists]

theorem exists_emit_of_mem (hf : f ∈ fs) (h : emitFunctions g labels fs = .ok code) :
    ∃ above own below lo hi, f.emit g lo = .ok (own, hi) ∧ code = above ++ own ++ below := by
  induction fs generalizing labels code with
  | nil => cases hf
  | cons f1 fs ih =>
    obtain ⟨code1, labels1, hf1, code2, hfs, rfl⟩ := emitFunctions_cons_eq_ok_iff.mp h
    cases hf with
    | head => exact ⟨[], code1, code2, labels, labels1, hf1, rfl⟩
    | tail _ hmem =>
      obtain ⟨above, own, below, lo, hi, hown, rfl⟩ := ih hmem hfs
      exact ⟨code1 ++ above, own, below, lo, hi, hown, by simp only [List.append_assoc]⟩

theorem epilogue_getLast? (ctx : Context) : ∃ line, (epilogue ctx).getLast? = some line ∧ Line.goesOn line = false := by
  unfold epilogue
  split
  next => exact ⟨.op .exit, rfl, rfl⟩
  next =>
    split
    next => exact ⟨.op .ret, rfl, rfl⟩
    next => exact ⟨.op .ret, rfl, rfl⟩

structure FunctionsFit (g : Globals) (labels : Nat) (fs : List TopLevel) (code : Code) (hi : Nat) :
    Prop where
  assign : Assignable labels hi fun Δ => ∃ ds, FitsAll g.functions Δ code ds
    ∧ ∀ i, TopLevel.Starts g labels fs i → ds[i]? = some 0
  placed : ∀ n, labels < n → n ≤ hi → .label (.fresh n) ∈ code

theorem functionsFit_cons {labels labels' : Nat} {code code' : Code} (hg : g.Near) (hagree : f.Agrees g)
    (hf : f.emit g labels = .ok (code, labels')) (hfs : FunctionsFit g labels' fs code' hi)
    : FunctionsFit g labels (f :: fs) (code ++ code') hi := by
  cases f with
  | missing e => exact (TopLevel.emit_missing_eq_ok_iff.mp hf).elim
  | function name ret params body =>
    obtain ⟨locals, hparams, c, b, hbody, heq⟩ := TopLevel.emit_function_eq_ok_iff.mp hf
    cases heq
    obtain ⟨fn, hfn, rfl, hcount⟩ := hagree
    have hlevel := (body.emits hbody).leveled
    have hargs : b.locals.params = fn.params := by
      rw [(Stmt.grows hbody).params_eq, params_addParams hparams, Nat.zero_add, hcount]
    rw [hargs] at hf ⊢
    constructor
    · refine (hlevel.and hfs.assign).mono ?_
      rintro Δ ⟨hcode, ds', hfits', hstarts'⟩
      obtain ⟨hlevels, -⟩ := hcode ⟨by rintro l ⟨⟩, by rintro l ⟨⟩⟩ ⟨by rintro v l ⟨⟩, by rintro l ⟨⟩⟩
      obtain ⟨ds1, hepilogue⟩ :=
        @goes_epilogue g.functions Δ { globals := g, ret := fn.ret, main := name == "main" }
      obtain ⟨ds, hfits, hlength, hstarts⟩ := hlevels.extend hepilogue
      obtain ⟨last, hlast, hstop⟩ :=
        epilogue_getLast? { globals := g, ret := fn.ret, main := name == "main" }
      have hpos : 0 < (epilogue { globals := g, ret := fn.ret, main := name == "main" }).length := by
        rw [List.length_pos_iff]
        rintro hnil
        rw [hnil] at hlast
        cases hlast
      have hlen : (ds ++ ds1).length
          = c.length + (epilogue { globals := g, ret := fn.ret, main := name == "main" }).length := by
        rw [hfits.length_eq, List.length_append]
      have hbody' : (c ++ epilogue { globals := g, ret := fn.ret, main := name == "main" }).getLast?
          = some last := by
        rw [List.getLast?_append, hlast, Option.some_or]
      refine ⟨_, .function hfn hfits ⟨last, hbody', hstop⟩ hfits', ?_⟩
      intro i hi
      cases hi with
      | @body _ i _ _ _ _ _ _ hparams' hstart =>
        cases hparams.symm.trans hparams'
        obtain ⟨hle, hzero⟩ := hstarts i hstart
        have hlt : i < (ds ++ ds1).length := by
          rw [hlen]
          omega
        rw [List.getElem?_append_left hlt] at hzero
        rw [List.append_assoc, Nat.add_comm]
        change (ds ++ ds1 ++ ds')[i]? = some 0
        rw [List.getElem?_append_left hlt, hzero]
      | @behind _ _ i _ _ _ hf' hstart =>
        cases hf.symm.trans hf'
        have hfront : ([fn.params, fn.params] ++ (ds ++ ds1)).length
            = ([.label (.named name), .op .func [.int b.locals.size, .int fn.params]] ++ c
              ++ epilogue { globals := g, ret := fn.ret, main := name == "main" } : Code).length := by
          rw [List.length_append, hlen]
          simp only [List.length_append, List.length_cons, List.length_nil]
          omega
        rw [← hfront, List.getElem?_append_right (Nat.le_add_right _ _), Nat.add_sub_cancel_left]
        exact hstarts' i hstart
    · intro n hlo hn
      by_cases hown : n ≤ b.labels
      · have hmem := body.mem_of_emit hg (near_addParams .empty hparams) hbody hlo hown
        simp [hmem]
      · exact List.mem_append_right _ (hfs.placed n (Nat.lt_of_not_le hown) hn)

theorem exists_functionsFit (hg : g.Near) (hagree : ∀ f ∈ fs, f.Agrees g) (h : emitFunctions g labels fs = .ok code)
    : ∃ hi, FunctionsFit g labels fs code hi := by
  induction fs generalizing labels code with
  | nil =>
    cases h
    exact ⟨labels, .of_forall fun Δ => ⟨[], .nil, by rintro i ⟨⟩⟩, fun n hlo hhi => by omega⟩
  | cons f fs ih =>
    obtain ⟨code1, labels1, hf, code2, hfs, rfl⟩ := emitFunctions_cons_eq_ok_iff.mp h
    obtain ⟨hi, hfit⟩ := ih (fun f hmem => hagree f (by simp [hmem])) hfs
    exact ⟨hi, functionsFit_cons hg (hagree f (by simp)) hf hfit⟩

theorem FunctionsFit.balanced (h : FunctionsFit g 0 fs code hi) :
    ∃ depth, Balanced g.functions code (TopLevel.Starts g 0 fs) depth := by
  obtain ⟨Δ, ⟨ds, hfits, hstarts⟩, hΔ⟩ := h.assign.exists_depths
  refine ⟨_, hfits.balanced ?_ hstarts⟩
  intro l d hl
  obtain ⟨n, rfl, hlo, hhi⟩ := hΔ l d hl
  exact ⟨n, rfl, h.placed n hlo hhi⟩

def Consistent (source : String) : Prop :=
  ∀ g ∈ (survey (Cursor.ofSource source)).toOption,
    ∀ f ∈ functions g.macros (Cursor.ofSource source), f.Agrees g

instance (source : String) : Decidable (Consistent source) :=
  inferInstanceAs (Decidable (∀ g ∈ (survey (Cursor.ofSource source)).toOption,
    ∀ f ∈ functions g.macros (Cursor.ofSource source), f.Agrees g))

theorem compileCode_eq_ok_iff {program : Code} :
    compileCode source = .ok program
      ↔ ∃ g, survey (Cursor.ofSource source) = .ok g
        ∧ ∃ code, emitFunctions g 0 (functions g.macros (Cursor.ofSource source)) = .ok code
          ∧ startCode g ++ [.op .jmp [.label (.named "main")]] ++ code = program := by
  simp only [compileCode, Except.bind_eq_ok_iff, Except.pure_eq_ok_iff]

theorem compile_eq_ok_iff {text : String} :
    compile source = .ok text
      ↔ ∃ g, survey (Cursor.ofSource source) = .ok g
        ∧ ∃ code, emitFunctions g 0 (functions g.macros (Cursor.ofSource source)) = .ok code
          ∧ Code.render (startCode g ++ [.op .jmp [.label (.named "main")]] ++ code) = text := by
  rw [compile, Except.map_eq_ok_iff]
  constructor
  · rintro ⟨program, hprogram, htext⟩
    obtain ⟨g, hg, code, hcode, rfl⟩ := compileCode_eq_ok_iff.mp hprogram
    exact ⟨g, hg, code, hcode, htext⟩
  · rintro ⟨g, hg, code, hcode, htext⟩
    exact ⟨_, compileCode_eq_ok_iff.mpr ⟨g, hg, code, hcode, rfl⟩, htext⟩

/--
The functions of a compiled program are balanced: their lines can be given depths of the value stack on which all ways
agree, with depth zero behind `FUNC`, wherever a statement starts and at `EXIT`, and with the result alone at `RET`.
-/
theorem compile_balanced {source text : String} (h : compile source = .ok text)
    (hconsistent : Consistent source)
    : ∃ g code depth, survey (Cursor.ofSource source) = .ok g
        ∧ emitFunctions g 0 (functions g.macros (Cursor.ofSource source)) = .ok code
        ∧ text = Code.render (startCode g ++ [.op .jmp [.label (.named "main")]] ++ code)
        ∧ Balanced g.functions code
            (TopLevel.Starts g 0 (functions g.macros (Cursor.ofSource source))) depth := by
  obtain ⟨g, hg, code, hcode, rfl⟩ := compile_eq_ok_iff.mp h
  obtain ⟨hi, hfit⟩ := exists_functionsFit (survey_near hg) (hconsistent g (by simp [hg, Except.toOption])) hcode
  obtain ⟨depth, hbalanced⟩ := hfit.balanced
  exact ⟨g, code, depth, hg, hcode, rfl, hbalanced⟩

def sumSource : String :=
  "int sum(int a, int b) \x7b return a + b; \x7d " ++
    "void main() \x7b int i; for (i = 0; i < 3; i++) switch (i) \x7b " ++
    "case 1: printf(\"%d\", sum(i, 2)); break; default: continue; \x7d \x7d"

theorem compile_balanced_sumSource :
    ∃ text, compile sumSource = .ok text ∧ Consistent sumSource
      ∧ ∃ g code depth, survey (Cursor.ofSource sumSource) = .ok g
        ∧ emitFunctions g 0 (functions g.macros (Cursor.ofSource sumSource)) = .ok code
        ∧ text = Code.render (startCode g ++ [.op .jmp [.label (.named "main")]] ++ code)
        ∧ Balanced g.functions code
            (TopLevel.Starts g 0 (functions g.macros (Cursor.ofSource sumSource))) depth := by
  obtain ⟨text, htext⟩ := Except.exists_eq_ok_of_isOk (x := compile sumSource) (by decide +kernel)
  have hconsistent : Consistent sumSource := by decide +kernel
  exact ⟨text, htext, hconsistent, compile_balanced htext hconsistent⟩

end Handheld.Source
