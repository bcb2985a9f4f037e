import Handheld.Width

/-!
Types of the source language: a base and a pointer depth.
-/
namespace Handheld.Source

inductive Base where
  | void
  | char
  | int
  | long
  deriving DecidableEq, Repr

def Base.width : Base → Width
  | void | char => .byte
  | int => .word
  | long => .dword

structure Ty where
  base : Base
  pointer : UInt8 := 0
  deriving DecidableEq, Repr

namespace Ty

def void : Ty := { base := .void }

def char : Ty := { base := .char }

def number : Ty := { base := .long }

def string : Ty := { base := .char, pointer := 1 }

def isPointer (ty : Ty) : Bool :=
  0 < ty.pointer

def isVoid (ty : Ty) : Bool :=
  ty == void

def width (ty : Ty) : Width :=
  if ty.isPointer then .dword else ty.base.width

def size (ty : Ty) : Nat :=
  ty.width.bytes

def addressOf (ty : Ty) : Ty :=
  { ty with pointer := ty.pointer + 1 }

def pointee (ty : Ty) : Ty :=
  if ty.isPointer then { ty with pointer := ty.pointer - 1 } else char

def stride (ty : Ty) : Nat :=
  if !ty.isPointer || ty.pointee.isVoid then 1 else ty.pointee.size

end Ty
end Handheld.Source
