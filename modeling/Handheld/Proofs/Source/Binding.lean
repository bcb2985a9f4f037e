import Handheld.Proofs.Asm.Operands
import Handheld.Proofs.Machine.Entry
import Handheld.Proofs.Source.Evaluating
import Handheld.Proofs.Source.Slots

/-!
Calls of functions. Arguments are evaluated from left to right, and each parameter holds as much of its argument as its
type keeps.
-/
namespace Handheld.Source

open Asm Machine

inductive Arguments (ctx : Context) (span : Span) : List Expr → Stage → List Int32 → Stage → Prop where
  | nil (p : Stage) : Arguments ctx span [] p [] p
  | cons {arg : Expr} {args : List Expr} {n : Int32} {vs : List Int32} {p p1 p' : Stage}
    (harg : arg.Evaluates ctx span p n p1) (hargs : Arguments ctx span args p1 vs p') :
    Arguments ctx span (arg :: args) p (n :: vs) p'

def functionHead (name : String) (size argc : Nat) : Code :=
  [.label (.named name), .op .func [.int size, .int argc]]

def Param.var (param : Param) (i : Nat) : Var where
  offset := (Memory.frameHeader + Memory.paramSlot * i) % 0x10000
  ty := param.ty
  onFrame := true

def ReadsParam (program : Code) (params : List Param) (x : String) (m : Machine) (n : Int32) : Prop :=
  ∀ (ctx : Context) (ls : Locals) (b : Body) (named span : Span), addParams params {} = .ok ls → ls.Grows b.locals →
    ∃ code ty, (Expr.name x named).Loads ctx span b code ty b
      ∧ ∀ (front back : Code) (stack : List Int32), program = front ++ code ++ back → stack.length < m.stack.limit →
        m.Runs ⟨front.stop, stack, m.memory⟩ ⟨Code.stop (front ++ code), n :: stack, m.memory⟩

section Arguments

variable {ctx : Context} {span : Span} {args : List Expr} {vs : List Int32} {p p' : Stage}

section

variable (h : Arguments ctx span args p vs p')

include h

theorem Arguments.length_eq : vs.length = args.length := by
  induction h with
  | nil => rfl
  | cons _ _ ih => rw [List.length_cons, List.length_cons, ih]

theorem Arguments.exists_code :
    ∃ code, Expr.emitArgs ctx span args p.body = .ok (code, p'.body) ∧ p'.machine.pc = p.machine.pc + code.extent := by
  induction h with
  | nil => exact ⟨[], rfl, rfl⟩
  | @cons arg args n vs p p1 p' harg _ ih =>
    obtain ⟨code1, ty, hloads, hpc⟩ := harg.emitted
    obtain ⟨code2, hemit, hpc'⟩ := ih
    refine ⟨code1 ++ code2, Expr.emitArgs_cons_eq_ok_iff.mpr ⟨_, _, _, hloads, _, _, hemit, rfl⟩, ?_⟩
    rw [hpc', hpc, Code.extent_append, Nat.add_assoc]

theorem Arguments.stack_eq :
    p'.machine.stack = { p.machine.stack with items := p.machine.stack.items ++ vs.toArray } := by
  induction h with
  | nil => simp
  | cons harg _ ih =>
    rw [ih, harg.stack]
    simp

theorem Arguments.back (hready : p.machine.Ready) : p.machine.Back p'.machine := by
  induction h with
  | nil => exact .refl hready
  | cons harg _ ih => exact harg.back.trans (ih harg.back.ready)

end

end Arguments

theorem lookup_addParams {params : List Param} {ls ls' : Locals} {i : Nat} {param : Param}
    (h : addParams params ls = .ok ls') (hi : params[i]? = some param)
    : ∃ x, param.name = some x ∧ ls'.vars.lookup x = some (param.var (ls.params + i)) := by
  induction params generalizing ls i with
  | nil => cases hi
  | cons p ps ih =>
    obtain ⟨name, hname, ls1, hparam, hrest⟩ := addParams_cons_eq_ok_iff.mp h
    obtain ⟨-, rfl⟩ := Locals.param_eq_ok hparam
    cases i with
    | zero =>
      cases hi
      refine ⟨name, hname, extends_addParams hrest name _ ?_⟩
      exact (Table.lookup_insert ..).trans (if_pos rfl)
    | succ i =>
      rw [List.getElem?_cons_succ] at hi
      obtain ⟨x, hx, hlookup⟩ := ih hrest hi
      refine ⟨x, hx, ?_⟩
      rw [hlookup, Nat.add_assoc, Nat.add_comm 1]

theorem readsParam {program : Code} {options : Options} {m : Machine} {params : List Param} {i : Nat} {param : Param}
    {x : String} {n : Int32} (hready : m.Ready) (himage : assemble program.render options = .ok m.image)
    (hi : params[i]? = some param) (hx : param.name = some x) (hcount : params.length ≤ 255)
    (hload : m.memory.load ⟨UInt16.ofNat (Memory.frameHeader + Memory.paramSlot * i), param.ty.width, true⟩ m.base = n)
    : ReadsParam program params x m n := by
  intro ctx ls b named span hparams hgrows
  obtain ⟨y, hy, hlookup⟩ := lookup_addParams hparams hi
  cases hx.symm.trans hy
  rw [Nat.zero_add] at hlookup
  have hv : ctx.var? b x = some (param.var i) := by rw [Context.var?, hgrows.lookup hlookup, Option.some_or]
  have hoffset : (param.var i).offset = Memory.frameHeader + Memory.paramSlot * i := by
    have hlt : i < params.length := (List.getElem?_eq_some_iff.mp hi).1
    simp only [Param.var, Memory.frameHeader, Memory.paramSlot]
    omega
  have hsmall : (param.var i).offset < 256 ^ 2 := Nat.mod_lt _ (by decide)
  refine ⟨[(param.var i).access .load], _, ⟨[], _, _, Expr.emit_name_eq_ok_iff.mpr ⟨_, hv, rfl⟩, rfl, rfl⟩, ?_⟩
  rintro front back stack rfl hroom
  have hreadable : Code.Readable [(param.var i).access .load] := by
    intro line hline
    cases List.mem_singleton.mp hline
    intro a ha
    cases List.mem_singleton.mp ha
    change ((param.var i).offset : Int).natAbs < 2 ^ 63
    omega
  obtain ⟨⟨address, hstands⟩, hstop⟩ := Code.stands_of_assemble hreadable himage
  have hop := Activation.stands_access_of_lt hsmall hstands
  rw [hstop, Activation.extent_access, ← hload, ← hoffset]
  exact Machine.runs_access_load hready hroom hop

section Calls

variable {source : String} {g : Globals} {program : Code} {options : Options} {image : Array UInt8} {name : String}
  {ret : Ty} {params : List Param} {body : Stmt}

theorem exists_standsFunc (hg : survey (Cursor.ofSource source) = .ok g) (hprogram : compileCode source = .ok program)
    (hf : .function name ret params body ∈ functions g.macros (Cursor.ofSource source)) (hcount : params.length ≤ 255)
    (himage : assemble program.render options = .ok image)
    : ∃ (above : Code) (size : Nat) (below : Code),
        program = above ++ functionHead name size params.length ++ below
        ∧ addressIn program.render (.named name) = some above.stop
        ∧ Machine.StandsFunc image above.stop size params.length
        ∧ Code.stop (above ++ functionHead name size params.length) = above.stop + 4
        ∧ ∃ ls0, addParams params {} = .ok ls0 := by
  obtain ⟨g', hg', functions, hemit, rfl⟩ := compileCode_eq_ok_iff.mp hprogram
  cases hg.symm.trans hg'
  obtain ⟨code, ls, hcompiled⟩ := exists_compiled hemit hf
  obtain ⟨above, below, hsplit⟩ := hcompiled.frame
  obtain ⟨labels, ls0, b, hparams, hbody, rfl⟩ := hcompiled.emit
  have hsize := ((Stmt.grows hbody).near (near_addParams .empty hparams)).size
  rw [← List.append_assoc, List.append_assoc] at hsplit
  rw [← hsplit] at himage ⊢
  have hreadable : Code.Readable (functionHead name b.locals.size params.length) := by
    have hnames := namesRead_of_emit hg hemit
    intro line hline
    rcases List.mem_pair.mp hline with rfl | rfl
    · exact isName_of_isIdent (hnames.defined _ _ _ _ hf)
    · exact readable_func hsize (by omega)
  -- a label has no bytes, so the frame instruction stands where the label does
  obtain ⟨-, hstop⟩ := Code.stands_of_assemble hreadable himage
  obtain ⟨haddress, -⟩ := Code.stands_in_text hreadable himage
  obtain ⟨-, hfunc, -⟩ := Code.lies_in_text hreadable himage
  exact ⟨above, _, _, rfl, haddress, hfunc.func hsize hcount, hstop, ls0, hparams⟩

theorem Arguments.stands_call {ctx : Context} {ls : Locals} {p p' : Stage} {span : Span} {args : List Expr}
    {vs : List Int32} {f : Function} {front code back : Code} {place : Place} {b' : Body} {pos : Nat}
    (hargs : Arguments ctx span args p vs p') (hinside : p.Inside source ctx ls)
    (hf : ctx.globals.functions.lookup name = some f)
    (hcode : (Expr.call name span args).emit ctx p.body = .ok ((code, place), b'))
    (himage : assemble (Code.render (front ++ code ++ back)) options = .ok p.machine.image)
    (hpc : p.machine.pc = front.stop) (hpos : addressIn (Code.render (front ++ code ++ back)) (.named name) = some pos)
    : Machine.Stands p'.machine.image p'.machine.pc .call pos := by
  have hsealed := ((Expr.call name span args).seals ctx _ _ _ _ hcode hinside.inReach.near).1
  have hstands := Code.stands_in_text (hinside.readable hsealed) himage
  obtain ⟨-, argcode, b1, hemit, heq⟩ := (Expr.emit_call_function_eq_ok_iff hf).mp hcode
  cases heq
  -- the code of the arguments that were evaluated is the code in front of the call
  obtain ⟨argcode', hemit', hbehind⟩ := hargs.exists_code
  cases hemit.symm.trans hemit'
  obtain ⟨-, hcall, -⟩ := Code.stands_append.mp hstands
  obtain ⟨target, -, htarget, hop⟩ := hcall rfl
  cases htarget.symm.trans hpos
  rwa [(hargs.back hinside.ready).image, hbehind, hpc]

end Calls

/--
Parameters are bound to the values of the arguments. Behind the frame instruction of a function, to which a call of it
comes exactly if the frame, with its header, ends below the heap, each parameter is read as the value of its argument,
as far as its type keeps that. The stack is the one below the arguments, and only the header of the frame and the slots
of the parameters were written.
-/
theorem call_binds_parameters {source : String} {ctx : Context} {ls : Locals} {p p' : Stage}
    (hinside : p.Inside source ctx ls)
    -- the function
    {name : String} {ret : Ty} {params : List Param} {body : Stmt}
    (hf : .function name ret params body ∈ functions ctx.globals.macros (Cursor.ofSource source))
    (hcount : params.length ≤ 255) (hdeclared : (ctx.globals.functions.lookup name).isSome)
    -- the arguments
    {span : Span} {args : List Expr} {vs : List Int32} (hargs : Arguments ctx span args p vs p')
    (hfull : args.length = params.length)
    -- the code and the image
    {front code back : Code} {place : Place} {b' : Body} {options : Options}
    (hcode : (Expr.call name span args).emit ctx p.body = .ok ((code, place), b'))
    (hprogram : compileCode source = .ok (front ++ code ++ back))
    (himage : assemble (Code.render (front ++ code ++ back)) options = .ok p.machine.image)
    (hpc : p.machine.pc = front.stop)
    : ∃ (above : Code) (size : Nat) (below : Code),
        front ++ code ++ back = above ++ functionHead name size params.length ++ below
        ∧ ((∃ m1 m2, step p'.machine = .ok .running m1 ∧ step m1 = .ok .running m2)
          ↔ p'.machine.base2.toNat + max Memory.frameHeader size ≤ Memory.heapStart.toNat)
        ∧ ∀ pr1 m1 pr2 m2, step p'.machine = .ok pr1 m1 → step m1 = .ok pr2 m2 →
          m2.pc = Code.stop (above ++ functionHead name size params.length)
          ∧ m2.stack = p.machine.stack
          ∧ Memory.SameOutside p'.machine.base2.toNat (Memory.frameHeader + Memory.paramSlot * params.length)
            p'.machine.memory m2.memory
          ∧ ∀ (i : Nat) (param : Param) (n : Int32), params[i]? = some param → vs[i]? = some n →
            ∃ x, param.name = some x ∧ ReadsParam (front ++ code ++ back) params x m2 (param.ty.width.normalize n) := by
  obtain ⟨f, hlookup⟩ := Option.isSome_iff_exists.mp hdeclared
  obtain ⟨above, size, below, hsplit, haddress, hfunc, hstop, ls0, hparams⟩ :=
    exists_standsFunc hinside.surveyed hprogram hf hcount himage
  have hcall := hargs.stands_call hinside hlookup hcode himage hpc haddress
  have hback := hargs.back hinside.ready
  have hstack := hargs.stack_eq
  have hitems : p'.machine.stack.items = p.machine.stack.items ++ vs.toArray := by rw [hstack]
  have hlength : vs.length = params.length := hargs.length_eq.trans hfull
  rw [← hback.image] at hfunc
  have hargc : params.length ≤ p'.machine.stack.size := by
    rw [Stack.size, hitems, Array.size_append, List.size_toArray, ← hlength]
    exact Nat.le_add_left _ _
  refine ⟨above, size, below, hsplit, ⟨?_, ?_⟩, ?_⟩
  · rintro ⟨m1, m2, hsteps⟩
    exact ((steps_call_func_iff hback.ready hcall hfunc).mp hsteps).1
  · intro hbelow
    exact ⟨_, _, (steps_call_func_iff hback.ready hcall hfunc).mpr ⟨hbelow, hargc, rfl, rfl, rfl, rfl⟩⟩
  · intro pr1 m1 pr2 m2 hfirst hsecond
    obtain ⟨hbelow, -, -, -, -, rfl⟩ := (steps_call_func_iff hback.ready hcall hfunc).mp ⟨hfirst, hsecond⟩
    -- with at most 255 parameters, the slots end below the top of the memory wherever the frame starts
    have hroom : p'.machine.base2.toNat + (Memory.frameHeader + Memory.paramSlot * vs.length) ≤ 0xFFFF := by
      have hheap := Memory.toNat_heapStart
      have hheader : Memory.frameHeader = 5 := rfl
      simp only [Memory.paramSlot]
      omega
    rw [← hlength]
    refine ⟨?_, ?_, sameOutside_begunFrame hitems hroom, ?_⟩
    · rw [hlength, hstop, ← pc_entered hcall]
      rfl
    · rw [stack_begunFrame hitems, hstack]
    · intro i param n hi hn
      obtain ⟨x, hx, -⟩ := lookup_addParams hparams hi
      have hsame : assemble (Code.render (front ++ code ++ back)) options = .ok p'.machine.image := by
        rw [himage, hback.image]
      exact ⟨x, hx, readsParam ⟨hback.ready.loaded, hback.ready.halted⟩ hsame hi hx hcount (load_begunFrame hitems hroom hn)⟩

def bindSource : String :=
  "long n; int f(char a, int b, char *c) \x7b return b; \x7d void main() \x7b f(n = 300, n + 65536, n); \x7d"

def bindGlobals : Globals where
  vars := [("n", { offset := 0x2000, ty := { base := .long }, onFrame := false })]
  functions :=
    [("main", { ret := .void, params := 0, defined := true }),
      ("f", { ret := { base := .int }, params := 3, defined := true })]
  size := 4

def bindContext : Context where
  globals := bindGlobals
  ret := .void
  main := true

def bindParams : List Param :=
  [{ name := some "a", ty := { base := .char }, span := { line := 1, start := 19, stop := 20 } },
    { name := some "b", ty := { base := .int }, span := { line := 1, start := 26, stop := 27 } },
    { name := some "c", ty := { base := .char, pointer := 1 }, span := { line := 1, start := 35, stop := 36 } }]

def TopLevel.isWith (name : String) (params : List Param) : TopLevel → Bool
  | missing _ => false
  | function x _ ps _ => x == name && ps == params

theorem TopLevel.eq_of_isWith {f : TopLevel} {name : String} {params : List Param} (h : f.isWith name params) :
    ∃ ret body, f = .function name ret params body := by
  cases f with
  | missing e => cases h
  | function x ret ps body =>
    simp only [TopLevel.isWith, Bool.and_eq_true, beq_iff_eq] at h
    obtain ⟨rfl, rfl⟩ := h
    exact ⟨ret, body, rfl⟩

def bindFront : Code :=
  [.op .space [.int 4], .op .jmp [.label (.named "main")]]
    ++ functionHead "f" 17 3
    ++ [.op (.access .load .word true) [.int 9], .op .ret, .op (.push .byte) [.int 0], .op .ret]
    ++ functionHead "main" 5 0

def bindAssign : Expr :=
  .assign {} (.name "n" {}) (.num 300)

def bindAssignCode : Code :=
  [.op (.access .handle .dword false) [.addr 0x2000], .op (.push .word) [.int 300], .op .store]

def bindSum : Expr :=
  .binary .add {} (.name "n" {}) (.num 65536)

def bindSumCode : Code :=
  [.op (.access .load .dword false) [.addr 0x2000], .op (.push .dword) [.int 65536], .op (.binary .add)]

def bindName : Expr :=
  .name "n" {}

def bindNameCode : Code :=
  [.op (.access .load .dword false) [.addr 0x2000]]

def bindCode : Code :=
  bindAssignCode ++ bindSumCode ++ bindNameCode ++ [.op .call [.label (.named "f")]]

def bindProgram : Code :=
  bindFront ++ bindCode ++ [.op .pop, .op .exit]

def bindStage (image : Array UInt8) : Stage where
  body := {}
  machine := { image := image, pc := bindFront.stop, base := 0x2004, base2 := 0x2009, loaded := true }

theorem call_binds_parameters_mixed :
    ∃ image, assemble bindProgram.render {} = .ok image
      ∧ ∃ m m1 m2, (bindStage image).machine.Comes m ∧ step m = .ok .running m1 ∧ step m1 = .ok .running m2
        ∧ m2.stack.items = #[] ∧ Memory.SameOutside 0x2009 17 m.memory m2.memory
        ∧ ReadsParam bindProgram bindParams "a" m2 44 ∧ ReadsParam bindProgram bindParams "b" m2 300
        ∧ ReadsParam bindProgram bindParams "c" m2 300 := by
  obtain ⟨image, himage⟩ := Except.exists_eq_ok_of_isOk (x := assemble bindProgram.render {}) (by decide +kernel)
  have hsurvey : (survey (Cursor.ofSource bindSource)).toOption = some bindGlobals := by decide +kernel
  have hprogram : (compileCode bindSource).toOption = some bindProgram := by decide +kernel
  have hmem : ∃ f ∈ functions bindGlobals.macros (Cursor.ofSource bindSource), f.isWith "f" bindParams := by
    decide +kernel
  obtain ⟨f, hf, hwith⟩ := hmem
  obtain ⟨ret, body, rfl⟩ := TopLevel.eq_of_isWith hwith
  have hframe : (bindStage image).machine.InFrame bindGlobals {} :=
    ⟨Nat.le_of_ble_eq_true rfl, (bindStage image).machine, _, rfl, rfl, rfl⟩
  have hinside : (bindStage image).Inside bindSource bindContext {} :=
    ⟨Except.eq_ok_of_toOption hsurvey, ⟨[], {}, rfl, .refl⟩, .refl, ⟨rfl, rfl⟩, hframe⟩
  have hassign : bindAssign.Loads bindContext {} {} bindAssignCode { base := .long } {} := ⟨_, _, _, rfl, rfl, rfl⟩
  have hsum : bindSum.Loads bindContext {} {} bindSumCode .number {} := ⟨_, _, _, rfl, rfl, rfl⟩
  have hname : bindName.Loads bindContext {} {} bindNameCode { base := .long } {} := ⟨_, _, _, rfl, rfl, rfl⟩
  have hnumeric1 : bindAssign.isNumeric (scopeOf bindGlobals {}) := by decide
  have hnumeric2 : bindSum.isNumeric (scopeOf bindGlobals {}) := by decide
  have hnumeric3 : bindName.isNumeric (scopeOf bindGlobals {}) := by decide
  have himage1 : assemble (Code.render (bindFront ++ bindAssignCode
      ++ (bindSumCode ++ bindNameCode ++ [.op .call [.label (.named "f")], .op .pop, .op .exit]))) {}
      = .ok (bindStage image).machine.image := himage
  have himage2 : assemble (Code.render (bindFront ++ bindAssignCode ++ bindSumCode
      ++ (bindNameCode ++ [.op .call [.label (.named "f")], .op .pop, .op .exit]))) {}
      = .ok (bindStage image).machine.image := himage
  have himage3 : assemble (Code.render (bindFront ++ bindAssignCode ++ bindSumCode ++ bindNameCode
      ++ [.op .call [.label (.named "f")], .op .pop, .op .exit])) {} = .ok (bindStage image).machine.image := himage
  have hvalue1 : (bindAssign.eval (scopeOf bindGlobals {}) (storeOf bindGlobals {} 0x2004 Memory.blank)).1 = 300 := by
    decide +kernel
  have hvalue2 : (bindSum.eval (scopeOf bindGlobals {})
      (bindAssign.eval (scopeOf bindGlobals {}) (storeOf bindGlobals {} 0x2004 Memory.blank)).2).1 = 65836 := by
    decide +kernel
  have hvalue3 : (bindName.eval (scopeOf bindGlobals {}) (bindSum.eval (scopeOf bindGlobals {})
      (bindAssign.eval (scopeOf bindGlobals {}) (storeOf bindGlobals {} 0x2004 Memory.blank)).2).2).1 = 300 := by
    decide +kernel
  -- each argument is evaluated behind the one before it
  have hglobals : bindGlobals.Unwrapped := by decide
  have hlocals : Locals.Unwrapped {} := ⟨by decide, by decide⟩
  obtain ⟨_, hfirst, hstore1, -⟩ := Expr.exists_evaluates hinside hglobals hlocals hnumeric1 hassign himage1 rfl
    (Nat.le_of_ble_eq_true rfl) rfl hvalue1
  have hinside1 := hinside.of_back hfirst.back rfl
  obtain ⟨_, hsecond, hstore2, -⟩ := Expr.exists_evaluates hinside1 hglobals hlocals hnumeric2 hsum himage2
    (by dsimp only) (Nat.le_of_ble_eq_true rfl) hstore1 hvalue2
  have hinside2 := hinside1.of_back hsecond.back rfl
  obtain ⟨_, hthird, -⟩ := Expr.exists_evaluates hinside2 hglobals hlocals hnumeric3 hname himage3
    (by dsimp only) (Nat.le_of_ble_eq_true rfl) hstore2 hvalue3
  have hargs : Arguments bindContext {} [bindAssign, bindSum, bindName] (bindStage image) [300, 65836, 300] _ :=
    .cons hfirst (.cons hsecond (.cons hthird (.nil _)))
  have hcall : (Expr.call "f" {} [bindAssign, bindSum, bindName]).emit bindContext {}
      = .ok ((bindCode, .value { base := .int }), {}) := rfl
  obtain ⟨above, size, below, hsplit, hsteps, hbound⟩ := call_binds_parameters hinside hf (by decide) rfl hargs rfl hcall
    (Except.eq_ok_of_toOption hprogram) himage rfl
  have hsize : size = 17 := by
    have hframe : Line.op .func [.int size, .int bindParams.length] ∈ bindProgram := by
      rw [bindProgram, hsplit]
      simp [functionHead]
    have hoperand : (size : Int) = 17 := by
      simpa [bindProgram, bindFront, bindCode, bindAssignCode, bindSumCode, bindNameCode, functionHead, bindParams]
        using hframe
    omega
  subst hsize
  obtain ⟨m1, m2, hstep1, hstep2⟩ := hsteps.mpr (Nat.le_of_ble_eq_true rfl)
  obtain ⟨-, hstack, hsame, hreads⟩ := hbound _ _ _ _ hstep1 hstep2
  obtain ⟨_, ⟨⟩, hfirst'⟩ := hreads 0 _ _ rfl rfl
  obtain ⟨_, ⟨⟩, hsecond'⟩ := hreads 1 _ _ rfl rfl
  obtain ⟨_, ⟨⟩, hthird'⟩ := hreads 2 _ _ rfl rfl
  refine ⟨image, himage, _, m1, m2, hfirst.comes.trans (hsecond.comes.trans hthird.comes), hstep1, hstep2, ?_, hsame,
    hfirst', hsecond', hthird'⟩
  rw [hstack]
  rfl

end Handheld.Source
