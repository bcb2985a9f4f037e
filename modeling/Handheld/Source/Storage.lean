import Handheld.Memory
import Handheld.Source.Error
import Handheld.Source.Ty
import Handheld.Table

/-!
Where the named things of a program are: globals at addresses of the data space, locals at offsets in a frame,
functions, and macros. Sizes are words of 32 bits and the slots of parameters words of 16 bits, and nothing keeps them
from wrapping.
-/
namespace Handheld.Source

/-- A variable. `dims` are the extents of an array and empty for a scalar. -/
structure Var where
  offset : Nat
  ty : Ty
  dims : List Nat := []
  onFrame : Bool
  deriving DecidableEq, Repr

namespace Var

def isArray (v : Var) : Bool :=
  !v.dims.isEmpty

def count (v : Var) : Nat :=
  v.dims.foldl (· * ·) 1 % 0x100000000

def size (v : Var) : Nat :=
  v.ty.size * v.count % 0x100000000

def stride (v : Var) (dim : Nat) : Nat :=
  (v.dims.drop (dim + 1)).foldl (· * ·) 1 * v.ty.size % 0x100000000

def valueTy (v : Var) : Ty :=
  if v.isArray then v.ty.addressOf else v.ty

end Var

structure Function where
  ret : Ty
  params : Nat
  defined : Bool
  deriving DecidableEq, Repr

inductive Macro where
  | int (n : Int32)
  | text (bytes : List UInt8)
  deriving DecidableEq, Repr

abbrev Macros := List (String × Macro)

structure Globals where
  vars : List (String × Var) := []
  functions : List (String × Function) := []
  macros : Macros := []
  size : Nat := 0
  inits : List (Nat × List UInt8) := []
  /-- Strings that pointers point to from the start, by the address of the pointer. -/
  strings : List (Nat × List UInt8) := []

namespace Globals

def declare (g : Globals) (name : String) (ty : Ty) (dims : List Nat) (span : Span) :
    Except Error (Var × Globals) :=
  if Table.contains g.vars name || Table.contains g.functions name then
    .error ((Problem.redeclared name).inSpan span)
  else
    let start := (Memory.dataStart.toNat + g.size) % 0x100000000
    let v : Var := { offset := start % 0x10000, ty := ty, dims := dims, onFrame := false }
    if Memory.heapStart.toNat < (start + v.size) % 0x100000000 then
      .error (Problem.globalsTooLarge.inSpan span)
    else
      .ok (v, { g with vars := Table.insert g.vars name v, size := (g.size + v.size) % 0x100000000 })

end Globals

structure Locals where
  vars : List (String × Var) := []
  size : Nat := Memory.frameHeader
  params : Nat := 0

namespace Locals

def param (ls : Locals) (name : String) (ty : Ty) (span : Span) : Except Error Locals :=
  if Table.contains ls.vars name then .error ((Problem.redeclared name).inSpan span)
  else
    let offset := (Memory.frameHeader + Memory.paramSlot * ls.params) % 0x10000
    .ok
      { vars := Table.insert ls.vars name { offset := offset, ty := ty, onFrame := true }
        size := (offset + Memory.paramSlot) % 0x10000
        params := ls.params + 1 }

def claim (ls : Locals) (size : Nat) (span : Span) : Except Error (Nat × Locals) :=
  let stop := (ls.size + size) % 0x100000000
  if 0xFFFF < stop then .error (Problem.frameTooLarge.inSpan span)
  else .ok (ls.size, { ls with size := stop })

def declare (ls : Locals) (name : String) (ty : Ty) (dims : List Nat) (span : Span) :
    Except Error (Var × Locals) := do
  if Table.contains ls.vars name then throw ((Problem.redeclared name).inSpan span)
  let v : Var := { offset := ls.size, ty := ty, dims := dims, onFrame := true }
  let (_, ls) ← ls.claim v.size span
  return (v, { ls with vars := Table.insert ls.vars name v })

end Locals
end Handheld.Source
