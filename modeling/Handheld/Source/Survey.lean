import Handheld.Call
import Handheld.Source.Declarator

/-!
The survey of a program: one walk over the top level that collects macros, globals with their first bytes, and
the signature of every function, so that functions can be called before they are defined.
-/
namespace Handheld.Source

open Read

inductive Init where
  | value (n : Int32)
  | text (bytes : List UInt8)
  | list (items : List Init)

mutual

def Init.leaves : Init → List Init
  | list items => leavesAll items
  | leaf => [leaf]

def Init.leavesAll : List Init → List Init
  | [] => []
  | item :: items => item.leaves ++ leavesAll items

end

def Init.shape : Init → Option Shape
  | value _ => none
  | text bytes => some (.text bytes.length)
  | list items => some (.list items.length (leavesAll items).length)

mutual

def initializer (macros : Macros) : Nat → Read Init
  | 0 => throw Problem.internal.anywhere
  | fuel + 1 => do
    if ← eat (.punct .lBrace) then
      return .list (← initializers macros fuel)
    match ← string? macros with
    | some bytes => return .text bytes
    | none => return .value (← constant macros)

def initializers (macros : Macros) : Nat → Read (List Init)
  | 0 => throw Problem.internal.anywhere
  | fuel + 1 => do
    if ← eat (.punct .rBrace) then return []
    let item ← initializer macros fuel
    if ← eat (.punct .comma) then
      return item :: (← initializers macros fuel)
    let _ ← expect (.punct .rBrace)
    return [item]

end

def overlay (bytes : List UInt8) (pos : Nat) (data : List UInt8) : List UInt8 :=
  bytes.take pos ++ data ++ bytes.drop (pos + data.length)

def littleEndian (v : UInt32) : Nat → List UInt8
  | 0 => []
  | len + 1 => v.toUInt8 :: littleEndian (v >>> 8) len

/-- The first contents of a variable: its bytes, and the strings its pointers point to by their position. -/
structure Contents where
  bytes : List UInt8
  strings : List (Nat × List UInt8) := []

/-- Lays values one behind the other. A string fills an element of an array of pointers, or a row of characters. -/
def Contents.lay (v : Var) (row : Nat) (c : Contents) (pos : Nat) :
    List Init → Except Problem Contents
  | [] => .ok c
  | .value n :: rest =>
    if c.bytes.length < pos + v.ty.size then .error .tooManyInitializers
    else
      lay v row { c with bytes := overlay c.bytes pos (littleEndian n.toUInt32 v.ty.size) }
        (pos + v.ty.size) rest
  | .text s :: rest =>
    if v.ty.isPointer then
      if c.bytes.length < pos + v.ty.size then .error .tooManyInitializers
      else lay v row { c with strings := c.strings ++ [(pos, s)] } (pos + v.ty.size) rest
    else if v.ty == .char && v.isArray then
      -- a string starts on a row of its own
      let pos := (pos + row - 1) / row * row
      if c.bytes.length < pos + row then .error .tooManyInitializers
      else lay v row { c with bytes := overlay c.bytes pos (s.take row) } (pos + row) rest
    else
      .error .stringInitializer
  | .list _ :: _ => .error .internal

def Contents.ofInit (v : Var) (init : Init) : Except Problem Contents :=
  let blank : Contents := { bytes := List.replicate v.size 0 }
  let row := if 1 < v.dims.length then v.dims.getLastD 0 * v.ty.size else v.size
  let leaves := init.leaves
  match init, v.isArray && v.ty == .char with
  | .text s, true => .ok { bytes := overlay blank.bytes 0 (s.take v.size) }
  | _, _ =>
    if !v.isArray && 1 < leaves.length then .error .tooManyInitializers
    else blank.lay v row 0 leaves

def Globals.setContents (g : Globals) (v : Var) (init : Init) (span : Span) : Except Error Globals :=
  match Contents.ofInit v init with
  | .error .internal => .error Problem.internal.anywhere
  | .error p => .error (p.inSpan span)
  | .ok c =>
    let used := (c.bytes.reverse.dropWhile (· == 0)).reverse
    .ok { g with
      inits := if used.isEmpty then g.inits else g.inits ++ [(v.offset, used)]
      strings := g.strings ++ c.strings.map fun (pos, s) => ((v.offset + pos) % 0x10000, s) }

def directive (g : Globals) : Read Globals := do
  let hash ← expect (.punct .hash)
  let l ← peek
  if l.token == .ident "define" && l.span.line == hash.span.line then
    let _ ← next
    let name ← peek
    let (text, _) ← ident
    if name.span.line != hash.span.line then throw (name.unexpected "a macro name")
    let first ← peek
    let value ←
      if first.span.line != hash.span.line || first.token == .eof then pure (Macro.int 1)
      else
        match ← string? g.macros with
        | some bytes => pure (Macro.text bytes)
        | none => Macro.int <$> constant g.macros
    match ← restOfLine hash.span.line with
    | extra :: _ => throw (extra.unexpected "end of line")
    | [] => return { g with macros := Table.insert g.macros text value }
  else
    let _ ← restOfLine hash.span.line
    return g

def Globals.addFunction (g : Globals) (name : String) (f : Function) (span : Span) :
    Except Error Globals :=
  if (Call.ofName? name).isSome || Table.contains g.vars name then
    .error ((Problem.redeclared name).inSpan span)
  else
    match g.functions.lookup name with
    | none => .ok { g with functions := Table.insert g.functions name f }
    | some prior =>
      if prior.params != f.params then
        .error ((Problem.parameters name prior.params).inSpan span)
      else if prior.defined && f.defined then
        .error ((Problem.redeclared name).inSpan span)
      else
        let merged := { prior with defined := prior.defined || f.defined }
        .ok { g with functions := Table.insert g.functions name merged }

def functionRest (g : Globals) (d : Declarator) (ty : Ty) : Read Globals := do
  let ps ← params g.macros
  let defined := (← peek).token == .punct .lBrace
  if defined then skipBlock
  else
    let _ ← expect (.punct .semicolon)
  let f : Function := { ret := ty, params := ps.length, defined := defined }
  match g.addFunction d.name f d.span with
  | .ok g => return g
  | .error e => throw e

def globalRest (g : Globals) (d : Declarator) (ty : Ty) : Read Globals := do
  if ty.isVoid then throw (Problem.voidVariable.inSpan d.span)
  let init ←
    if ← eat (.op .assign) then
      some <$> initializer g.macros (2 * ((← get).rest.length + 2))
    else
      pure none
  let added : Except Error Globals := do
    let dims ← d.extents ty (init.bind (·.shape))
    let (v, g) ← g.declare d.name ty dims d.span
    match init with
    | some init => g.setContents v init d.span
    | none => return g
  match added with
  | .ok g => return g
  | .error e => throw e

def declarators (base : Base) : Nat → Globals → Read Globals
  | 0, _ => throw Problem.internal.anywhere
  | fuel + 1, g => do
    let d ← declarator g.macros
    let ty : Ty := { base := base, pointer := d.pointer }
    if d.dims.isEmpty && (← peek).token == .punct .lParen then
      functionRest g d ty
    else
      let g ← globalRest g d ty
      if ← eat (.punct .comma) then declarators base fuel g
      else
        let _ ← expect (.punct .semicolon)
        return g

def declaration (g : Globals) : Read Globals := do
  match ← base? with
  | some base => declarators base ((← get).rest.length + 1) g
  | none => throw ((← next).unexpected "a type")

def topLevel : Nat → Globals → Read Globals
  | 0, _ => throw Problem.internal.anywhere
  | fuel + 1, g => do
    let l ← peek
    match l.token with
    | .eof => return g
    | .punct .hash => topLevel fuel (← directive g)
    | .punct .semicolon =>
      let _ ← next
      topLevel fuel g
    | .word w =>
      if w.isType then topLevel fuel (← declaration g)
      else throw (l.unexpected "a declaration")
    | _ => throw (l.unexpected "a declaration")

def survey (c : Cursor) : Except Error Globals :=
  match topLevel (c.rest.length + 1) {} c with
  | .error e _ => .error e
  | .ok g _ =>
    match g.functions.lookup "main" with
    | some f =>
      if !f.defined then .error Problem.noMain.anywhere
      else if f.params != 0 then .error Problem.mainParameters.anywhere
      else .ok g
    | none => .error Problem.noMain.anywhere

end Handheld.Source
