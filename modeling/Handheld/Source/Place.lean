import Handheld.Asm.Line
import Handheld.Source.Storage

/-!
What the code of an expression leaves behind. Code that names a variable does not read it yet: the place says
where it is, and only then is it chosen whether its value or a handle to it is wanted.
-/
namespace Handheld.Source

open Asm

def pushInt (n : Int32) : Line :=
  let width : Width :=
    if 0 ≤ n && n ≤ 255 then .byte
    else if -0x8000 ≤ n && n ≤ 0x7FFF then .word
    else .dword
  .op (.push width) [.int n.toInt]

def pushStr (bytes : List UInt8) : Line :=
  .op .pushStr [.text (bytes.takeWhile (· != 0))]

def Var.access (v : Var) (a : Access) : Line :=
  .op (.access a v.ty.width v.onFrame) [if v.onFrame then .int v.offset else .addr v.offset]

def scale (stride : Nat) : Code :=
  if stride == 1 then [] else [pushInt (Int32.ofNat stride), .op (.binary .mul)]

inductive Place where
  | void
  | value (ty : Ty)
  | var (v : Var)
  | element (v : Var) (n : Nat)
  | deref (ty : Ty)
  deriving DecidableEq, Repr

namespace Place

def load (p : Place) (span : Span) : Except Error (Code × Ty) :=
  match p with
  | void => .error (Problem.voidValue.inSpan span)
  | value ty => .ok ([], ty)
  | var v =>
    if v.isArray then .ok ([pushInt 0, v.access .effective], v.valueTy)
    else .ok ([v.access .load], v.valueTy)
  | element v n =>
    if n == v.dims.length then .ok ([v.access .indexed], v.ty)
    else .ok ([v.access .effective], v.ty.addressOf)
  | deref ty => .ok ([.op (.cast ty.width), .op .load], ty)

def handle (p : Place) (span : Span) : Except Error (Code × Ty) :=
  match p with
  | var v =>
    if v.isArray then .error (Problem.notAddressable.inSpan span)
    else .ok ([v.access .handle], v.ty)
  | element v n =>
    if n == v.dims.length then .ok ([v.access .effective], v.ty)
    else .error (Problem.notAddressable.inSpan span)
  | deref ty => .ok ([.op (.cast ty.width)], ty)
  | void | value _ => .error (Problem.notAddressable.inSpan span)

def address (p : Place) (span : Span) : Except Error (Code × Ty) :=
  match p with
  | var v => .ok ([pushInt 0, v.access .effective], v.ty.addressOf)
  | element v _ => .ok ([v.access .effective], v.ty.addressOf)
  | deref ty => .ok ([.op (.cast ty.width)], ty.addressOf)
  | void | value _ => .error (Problem.notAddressable.inSpan span)

def discard : Place → Code
  | void | var _ => []
  | value _ | element _ _ | deref _ => [.op .pop]

structure Part where
  stride : Nat
  added : Bool
  place : Place

def Part.code (part : Part) : Code :=
  scale part.stride ++ if part.added then [.op (.binary .add)] else []

/-- The part behind a subscript, and the code before the subscript. What is no array is read as a pointer. -/
def subscript (p : Place) (span : Span) : Except Error (Code × Part) :=
  match p with
  | var v =>
    if v.isArray then .ok ([], { stride := v.stride 0, added := false, place := element v 1 })
    else pointed p
  | element v n =>
    if n < v.dims.length then
      .ok ([], { stride := v.stride n, added := true, place := element v (n + 1) })
    else pointed p
  | p => pointed p
where
  pointed (p : Place) : Except Error (Code × Part) := do
    let (code, ty) ← p.load span
    return (code, { stride := ty.stride, added := true, place := deref ty.pointee })

end Place

def arithmetic (op : Binary) (left right : Ty) : Code × Ty :=
  let pointers := (op == .add || op == .sub) && left.isPointer
  if !pointers then ([.op (.binary op)], .number)
  else if right.isPointer then
    let unscale :=
      if left.stride == 1 then []
      else [pushInt (Int32.ofNat left.stride), .op (.binary .div)]
    (.op (.binary op) :: unscale, .number)
  else (scale left.stride ++ [.op (.binary op)], left)

def stepCode (ty : Ty) (up before : Bool) : Code :=
  if ty.isPointer && ty.stride != 1 then
    let stride := Int32.ofNat ty.stride
    let delta := pushInt (if up then stride else -stride)
    [.op .dup, .op .load, delta, .op (.binary .add), .op .store] ++
      if before then [] else [delta, .op (.binary .sub)]
  else
    [.op (.step up before)]

end Handheld.Source
