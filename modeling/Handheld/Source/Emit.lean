import Handheld.Source.Place
import Handheld.Source.Tree

/-!
Code for syntax trees. Every tree gives code or the first error in the order of reading.
-/
namespace Handheld.Source

open Asm

structure Cases where
  cases : List (Int32 × Label) := []
  default : Option Label := none

structure Body where
  labels : Nat := 0
  locals : Locals := {}
  switch : Option Cases := none

structure Context where
  globals : Globals
  ret : Ty
  main : Bool
  exit : Option Label := none
  next : Option Label := none

abbrev Emit (α : Type) := StateT Body (Except Error) α

namespace Emit

def fail {α : Type} (e : Error) : Emit α :=
  throw e

def fresh : Emit Label := do
  let s ← get
  set { s with labels := s.labels + 1 }
  return .fresh (s.labels + 1)

def onLocals {α : Type} (f : Locals → Except Error (α × Locals)) : Emit α := do
  let s ← get
  let (a, locals) ← f s.locals
  set { s with locals := locals }
  return a

def loaded (r : Code × Place) (span : Span) : Emit (Code × Ty) := do
  let (code, ty) ← r.2.load span
  return (r.1 ++ code, ty)

def handled (r : Code × Place) (span : Span) : Emit (Code × Ty) := do
  let (code, ty) ← r.2.handle span
  return (r.1 ++ code, ty)

end Emit

open Emit

def lookup (ctx : Context) (name : String) (span : Span) : Emit Place := do
  match ((← get).locals.vars.lookup name).or (ctx.globals.vars.lookup name) with
  | some v => return .var v
  | none => fail ((Problem.undefinedName name).inSpan span)

inductive Callee where
  | function (f : Function)
  | library (c : Call)

def callee (ctx : Context) (name : String) (span : Span) : Except Error Callee :=
  match ctx.globals.functions.lookup name, Call.ofName? name with
  | some f, _ => .ok (.function f)
  | none, some c => .ok (.library c)
  | none, none => .error ((Problem.undefinedFunction name).inSpan span)

def Call.place (c : Call) : Place :=
  if !c.signature.returns then .void
  else if c == .strchr || c == .strstr || c == .alloc then .value .string
  else .value .number

def callCode (f : Callee) (name : String) (span : Span) (argc : Nat) : Except Error (Code × Place) :=
  let wrongCount (wanted : Nat) := (Problem.arguments name wanted argc).inSpan span
  match f with
  | .function f =>
    if argc != f.params then .error (wrongCount f.params)
    else .ok ([.op .call [.label (.named name)]], if f.ret.isVoid then .void else .value f.ret)
  | .library c =>
    let s := c.signature
    if s.variadic then
      if argc < s.args then .error (wrongCount s.args)
      else .ok ([pushInt (Int32.ofNat argc), .call c], Call.place c)
    else if argc != s.args then .error (wrongCount s.args)
    else .ok ([.call c], Call.place c)

def logicCode (both : Bool) (left right : Code) (short stop : Label) : Code :=
  let jump := Line.op (if both then .jz else .jnz) [.label short]
  left ++ [jump] ++ right ++
    [jump, pushInt (if both then -1 else 0), .op .jmp [.label stop], .label short,
      pushInt (if both then 0 else -1), .label stop]

def unaryCode (op : Unary) (span : Span) (r : Code × Place) : Emit (Code × Place) := do
  match op with
  | .address =>
    let (code, ty) ← r.2.address span
    return (r.1 ++ code, .value ty)
  | .neg =>
    let (code, _) ← loaded r span
    return (code ++ [.op .neg], .value .number)
  | .not =>
    let (code, _) ← loaded r span
    return (code ++ [.op .lnot], .value .number)
  | .complement =>
    let (code, _) ← loaded r span
    return (code ++ [.op .not], .value .number)
  | .plus =>
    let (code, ty) ← loaded r span
    return (code, .value ty)
  | .deref =>
    let (code, ty) ← loaded r span
    return (code, .deref ty.pointee)

mutual

def Expr.emit (ctx : Context) : Expr → Emit (Code × Place)
  | .missing err => fail err
  | .cut e err => do
    let _ ← e.emit ctx
    fail err
  | .num n => return ([pushInt n], .value .number)
  | .str bytes => return ([pushStr bytes], .value .string)
  | .name x span => return ([], ← lookup ctx x span)
  | .call f span args => do
    let target ← callee ctx f span
    let code ← Expr.emitArgs ctx span args
    let (jump, place) ← callCode target f span args.length
    return (code ++ jump, place)
  | .index base span sub => do
    let (code, place) ← base.emit ctx
    let (pointer, part) ← place.subscript span
    let (offset, _) ← loaded (← sub.emit ctx) span
    return (code ++ pointer ++ offset ++ part.code, part.place)
  | .step up before span e => do
    let (code, ty) ← handled (← e.emit ctx) span
    return (code ++ stepCode ty up before, .value ty)
  | .unary op span e => do
    unaryCode op span (← e.emit ctx)
  | .binary op span left right => do
    let (code1, ty1) ← loaded (← left.emit ctx) span
    let (code2, ty2) ← loaded (← right.emit ctx) span
    let (code3, ty) := arithmetic op ty1 ty2
    return (code1 ++ code2 ++ code3, .value ty)
  | .logic both span left right => do
    let (code1, _) ← loaded (← left.emit ctx) span
    let short ← fresh
    let stop ← fresh
    let (code2, _) ← loaded (← right.emit ctx) span
    return (logicCode both code1 code2 short stop, .value .number)
  | .ternary span cond yes no => do
    let (code1, _) ← loaded (← cond.emit ctx) span
    let otherwise ← fresh
    let stop ← fresh
    let (code2, ty) ← loaded (← yes.emit ctx) span
    let (code3, _) ← loaded (← no.emit ctx) span
    return (code1 ++ [.op .jz [.label otherwise]] ++ code2 ++
      [.op .jmp [.label stop], .label otherwise] ++ code3 ++ [.label stop], .value ty)
  | .assign span left right => do
    let (code1, ty) ← handled (← left.emit ctx) span
    let (code2, _) ← loaded (← right.emit ctx) span
    return (code1 ++ code2 ++ [.op .store], .value ty)
  | .update op span left right => do
    let (code1, ty) ← handled (← left.emit ctx) span
    let (code2, ty2) ← loaded (← right.emit ctx) span
    return (code1 ++ [.op .dup, .op .load] ++ code2 ++ (arithmetic op ty ty2).1 ++ [.op .store],
      .value ty)
  | .comma left right => do
    let (code1, place) ← left.emit ctx
    let (code2, place2) ← right.emit ctx
    return (code1 ++ place.discard ++ code2, place2)

def Expr.emitArgs (ctx : Context) (span : Span) : List Expr → Emit Code
  | [] => return []
  | arg :: args => do
    let (code, _) ← loaded (← arg.emit ctx) span
    return code ++ (← Expr.emitArgs ctx span args)

end

def Expr.emitValue (ctx : Context) (span : Span) (e : Expr) : Emit Code := do
  let (code, _) ← loaded (← e.emit ctx) span
  return code

def Expr.emitEffect (ctx : Context) (e : Expr) : Emit Code := do
  let (code, place) ← e.emit ctx
  return code ++ place.discard

def epilogue (ctx : Context) : Code :=
  if ctx.main then [.op .exit]
  else if ctx.ret.isVoid then [.op .ret]
  else [pushInt 0, .op .ret]

def storeCode (v : Var) (value : Code) : Code :=
  [v.access .handle] ++ value ++ [.op .store, .op .pop]

def emitElements (ctx : Context) : List Element → Emit (List Code)
  | [] => return []
  | x :: xs => do
    let code ← x.value.emitValue ctx x.opened
    return code :: (← emitElements ctx xs)

def storeElements (v : Var) (values : List Code) : Code :=
  values.zipIdx.flatMap fun (code, i) =>
    storeCode { v with offset := (v.offset + i * v.ty.size) % 0x10000, dims := [] } code

def Declared.emit (ctx : Context) (base : Base) : Declared → Emit Code
  | .missing e => fail e
  | .function d => do
    let _ ← checked d
    fail (Problem.nestedFunction.inSpan d.span)
  | .plain d => do
    let ty ← checked d
    let dims ← d.extents ty none
    let _ ← onLocals (·.declare d.name ty dims d.span)
    return []
  | .scalar d value => do
    let ty ← checked d
    -- a scalar is in scope in its own initializer, an array is not
    let v ← onLocals (·.declare d.name ty [] d.span)
    return storeCode v (← value.emitValue ctx d.span)
  | .text d bytes => do
    let ty ← checked d
    if ty != .char then fail (Problem.stringInitializer.inSpan d.span)
    let dims ← d.extents ty (some (.text bytes.length))
    let v ← onLocals (·.declare d.name ty dims d.span)
    if v.size ≤ bytes.length then fail (Problem.stringTooLong.inSpan d.span)
    return [pushInt 0, v.access .effective, pushStr bytes, .call .strcpy]
  | .list d elements => do
    let ty ← checked d
    let values ← emitElements ctx elements
    let dims ← d.extents ty (some (.list values.length values.length))
    let v ← onLocals (·.declare d.name ty dims d.span)
    if v.count < values.length then fail (Problem.tooManyInitializers.inSpan d.span)
    return storeElements v values
where
  checked (d : Declarator) : Emit Ty := do
    let ty : Ty := { base := base, pointer := d.pointer }
    if ty.isVoid then fail (Problem.voidVariable.inSpan d.span)
    return ty

def emitDeclared (ctx : Context) (base : Base) : List Declared → Emit Code
  | [] => return []
  | d :: ds => do
    let code ← d.emit ctx base
    return code ++ (← emitDeclared ctx base ds)

def addCase (span : Span) (value : Int32) : Emit Code := do
  let label ← fresh
  let s ← get
  match s.switch with
  | none => fail ((Problem.outsideSwitch .case).inSpan span)
  | some sw =>
    if sw.cases.any (·.1 == value) then fail ((Problem.duplicateCase value).inSpan span)
    set { s with switch := some { sw with cases := sw.cases ++ [(value, label)] } }
    return [.label label]

def addDefault (span : Span) : Emit Code := do
  let label ← fresh
  let s ← get
  match s.switch with
  | none => fail ((Problem.outsideSwitch .default).inSpan span)
  | some sw =>
    if sw.default.isSome then fail (Problem.duplicateDefault.inSpan span)
    set { s with switch := some { sw with default := some label } }
    return [.label label]

def dispatchCode (temp : Nat) (sw : Cases) (stop : Label) : Code :=
  (sw.cases.flatMap fun (value, label) =>
    [.op (.access .load .dword true) [.int temp], pushInt value, .op (.binary .eq),
      .op .jnz [.label label]]) ++
    [.op .jmp [.label (sw.default.getD stop)], .label stop]

def jumpCode (target : Option Label) (w : Word) (span : Span) : Emit Code :=
  match target with
  | some label => return [.op .jmp [.label label]]
  | none => fail ((Problem.outsideLoop w).inSpan span)

mutual

def Stmt.emit (ctx : Context) : Stmt → Emit Code
  | .missing e => fail e
  | .cut s e => do
    let _ ← s.emit ctx
    fail e
  | .empty => return []
  | .block body => Stmt.emitAll ctx body
  | .expr e => e.emitEffect ctx
  | .declare base items => emitDeclared ctx base items
  | .ifThen opened cond yes => do
    let code ← cond.emitValue ctx opened
    let otherwise ← fresh
    let yes ← yes.emit ctx
    return code ++ [.op .jz [.label otherwise]] ++ yes ++ [.label otherwise]
  | .ifElse opened cond yes no => do
    let code ← cond.emitValue ctx opened
    let otherwise ← fresh
    let yes ← yes.emit ctx
    let stop ← fresh
    let no ← no.emit ctx
    return code ++ [.op .jz [.label otherwise]] ++ yes ++
      [.op .jmp [.label stop], .label otherwise] ++ no ++ [.label stop]
  | .whileLoop opened cond body => do
    let top ← fresh
    let stop ← fresh
    let code ← cond.emitValue ctx opened
    let body ← body.emit { ctx with exit := some stop, next := some top }
    return [.label top] ++ code ++ [.op .jz [.label stop]] ++ body ++
      [.op .jmp [.label top], .label stop]
  | .doLoop body opened cond => do
    let top ← fresh
    let next ← fresh
    let stop ← fresh
    let body ← body.emit { ctx with exit := some stop, next := some next }
    let code ← cond.emitValue ctx opened
    return [.label top] ++ body ++ [.label next] ++ code ++ [.op .jnz [.label top], .label stop]
  | .forLoop opened init cond step body => do
    let init ← init.emit ctx
    let top ← fresh
    let next ← fresh
    let stop ← fresh
    let test ←
      match cond with
      | some cond => do
        let code ← cond.emitValue ctx opened
        pure (code ++ [.op .jz [.label stop]])
      | none => pure []
    let step ←
      match step with
      | some step => step.emitEffect ctx
      | none => pure []
    let body ← body.emit { ctx with exit := some stop, next := some next }
    return init ++ [.label top] ++ test ++ body ++ [.label next] ++ step ++
      [.op .jmp [.label top], .label stop]
  | .switch span opened cond body => do
    let temp ← onLocals (·.claim 4 span)
    let code ← cond.emitValue ctx opened
    let dispatch ← fresh
    let stop ← fresh
    let outer := (← get).switch
    modify fun s => { s with switch := some {} }
    let body ← body.emit { ctx with exit := some stop }
    let cases := (← get).switch.getD {}
    modify fun s => { s with switch := outer }
    return [.op (.access .handle .dword true) [.int temp]] ++ code ++
      [.op .store, .op .pop, .op .jmp [.label dispatch]] ++ body ++
      [.op .jmp [.label stop], .label dispatch] ++ dispatchCode temp cases stop
  | .case span value => addCase span value
  | .default span => addDefault span
  | .breakOut span => jumpCode ctx.exit .breakWord span
  | .goOn span => jumpCode ctx.next .continueWord span
  | .ret _ none => return epilogue ctx
  | .ret span (some e) => do
    if ctx.main || ctx.ret.isVoid then
      return (← e.emitEffect ctx) ++ epilogue ctx
    else
      return (← e.emitValue ctx span) ++ [.op .ret]

def Stmt.emitAll (ctx : Context) : List Stmt → Emit Code
  | [] => return []
  | s :: ss => do
    let code ← s.emit ctx
    return code ++ (← Stmt.emitAll ctx ss)

end

def addParams : List Param → Locals → Except Error Locals
  | [], ls => .ok ls
  | p :: ps, ls =>
    match p.name with
    | none => .error (Problem.unnamedParameter.inSpan p.span)
    | some name => do
      let ls ← ls.param name p.ty p.span
      addParams ps ls

def TopLevel.emit (globals : Globals) (labels : Nat) : TopLevel → Except Error (Code × Nat)
  | .missing e => .error e
  | .function name ret params body => do
    let locals ← addParams params {}
    let ctx : Context := { globals := globals, ret := ret, main := name == "main" }
    let (code, s) ← (body.emit ctx).run { labels := labels, locals := locals }
    let frame := Line.op .func [.int s.locals.size, .int s.locals.params]
    return ([.label (.named name), frame] ++ code ++ epilogue ctx, s.labels)

def emitFunctions (globals : Globals) : Nat → List TopLevel → Except Error Code
  | _, [] => .ok []
  | labels, f :: fs => do
    let (code, labels) ← f.emit globals labels
    return code ++ (← emitFunctions globals labels fs)

end Handheld.Source
