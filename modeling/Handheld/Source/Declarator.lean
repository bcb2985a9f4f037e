import Handheld.Source.Constant

/-!
The parts of declarations: types, declarators, parameter lists, and strings, which may be in several pieces.
-/
namespace Handheld.Source

open Read

structure Declarator where
  name : String
  span : Span
  pointer : UInt8
  dims : List (Option Nat)
  deriving DecidableEq, Repr

def Word.base? : Word → Option Base
  | void => some .void
  | char => some .char
  | int => some .int
  | long => some .long
  | _ => none

def base? : Read (Option Base) := do
  match (← peek).token with
  | .word w =>
    match w.base? with
    | some b =>
      let _ ← next
      return some b
    | none => return none
  | _ => return none

def stars : Read UInt8 := do
  let c ← get
  let n := (c.rest.takeWhile (·.token == .op (.binary .mul))).length
  set { c with rest := c.rest.drop n }
  return n.toUInt8

def extents (macros : Macros) : Nat → Read (List (Option Nat))
  | 0 => throw Problem.internal.anywhere
  | fuel + 1 => do
    if !(← eat (.punct .lBracket)) then return []
    if ← eat (.punct .rBracket) then
      return none :: (← extents macros fuel)
    let start ← peek
    let n ← constant macros
    if n ≤ 0 || 0xFFFF < n then throw ((Problem.badDimension n).inSpan start.span)
    let _ ← expect (.punct .rBracket)
    return some n.toInt.toNat :: (← extents macros fuel)

def declarator (macros : Macros) : Read Declarator := do
  let pointer ← stars
  let (name, span) ← ident
  let dims ← extents macros ((← get).rest.length + 1)
  return { name := name, span := span, pointer := pointer, dims := dims }

structure Param where
  name : Option String
  ty : Ty
  span : Span
  deriving DecidableEq, Repr

def paramBrackets (macros : Macros) : Nat → Read UInt8
  | 0 => throw Problem.internal.anywhere
  | fuel + 1 => do
    if !(← eat (.punct .lBracket)) then return 0
    if !(← eat (.punct .rBracket)) then
      let _ ← constant macros
      let _ ← expect (.punct .rBracket)
    return (← paramBrackets macros fuel) + 1

def param (macros : Macros) (base : Base) (span : Span) : Read Param := do
  let pointer ← stars
  let l ← peek
  let (name, span) ←
    match l.token with
    | .ident name => do
      let _ ← next
      pure (some name, l.span)
    | _ => pure (none, span)
  let brackets ← paramBrackets macros ((← get).rest.length + 1)
  let ty : Ty := { base := base, pointer := pointer + brackets }
  if ty.isVoid then throw (Problem.voidParameter.inSpan span)
  return { name := name, ty := ty, span := span }

def paramsRest (macros : Macros) (first : Bool) : Nat → Read (List Param)
  | 0 => throw Problem.internal.anywhere
  | fuel + 1 => do
    let l ← peek
    match ← base? with
    | none => throw (l.unexpected "a parameter type")
    | some base =>
      if base == .void && first then
        if ← eat (.punct .rParen) then return []
      let p ← param macros base l.span
      if ← eat (.punct .rParen) then return [p]
      let _ ← expect (.punct .comma)
      return p :: (← paramsRest macros false fuel)

def params (macros : Macros) : Read (List Param) := do
  let _ ← expect (.punct .lParen)
  if ← eat (.punct .rParen) then return []
  paramsRest macros true ((← get).rest.length + 1)

def piece? (macros : Macros) (l : Lexeme) : Option (List UInt8) :=
  match l.token with
  | .str bytes => some bytes
  | .ident name =>
    match macros.lookup name with
    | some (.text bytes) => some bytes
    | _ => none
  | _ => none

def pieces (macros : Macros) : List Lexeme → List (List UInt8)
  | [] => []
  | l :: ls =>
    match piece? macros l with
    | some bytes => bytes :: pieces macros ls
    | none => []

def string? (macros : Macros) : Read (Option (List UInt8)) := do
  let c ← get
  let found := pieces macros c.rest
  set { c with rest := c.rest.drop found.length }
  let _ ← peek
  return if found.isEmpty then none else some found.flatten

inductive Shape where
  | text (length : Nat)
  | list (parts values : Nat)

def Shape.extent (ty : Ty) (nested : Bool) (inner : Nat) : Shape → Option Nat
  | text length => if ty == .char then some (length + 1) else none
  | list parts values =>
    if inner == 0 then none
    else
      let count := if ty == .char && nested then parts * inner % 0x10000000000000000 else values
      some (max ((count + inner - 1) % 0x10000000000000000 / inner) 1)

/-- The extents of a declarator. Only the first may be open, and only if the initializer tells it. -/
def Declarator.extents (d : Declarator) (ty : Ty) (shape : Option Shape) : Except Error (List Nat) :=
  let missing := (Problem.openDimension d.name).inSpan d.span
  let closed (dims : List (Option Nat)) : Except Error (List Nat) :=
    dims.mapM fun n => n.elim (.error missing) .ok
  match d.dims with
  | none :: inner =>
    let size := inner.foldl (fun n dim => n * dim.getD 0) 1 % 0x10000000000000000
    match shape.bind (·.extent ty (!inner.isEmpty) size) with
    | some n => (closed inner).map (n % 0x10000 :: ·)
    | none => .error missing
  | dims => closed dims

end Handheld.Source
