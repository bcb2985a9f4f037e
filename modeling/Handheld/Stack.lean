import Handheld.Fault

/-!
Stacks of bounded height. An operation that fails keeps what it did before it failed: taking two
values from a stack of one leaves it empty.
-/
namespace Handheld

structure Stack (α : Type) where
  limit : Nat
  items : Array α := #[]

abbrev StackM (α β : Type) := EStateM Fault (Stack α) β

namespace Stack

variable {α : Type}

def empty (limit : Nat) : Stack α where
  limit := limit

instance : Inhabited (Stack α) := ⟨empty 0⟩

def size (s : Stack α) : Nat :=
  s.items.size

def toList (s : Stack α) : List α :=
  s.items.toList

def top (s : Stack α) (n : Nat) : List α :=
  (s.items.extract (s.size - n) s.size).toList.reverse

def clear : StackM α Unit :=
  modify fun s => { s with items := #[] }

def push (v : α) : StackM α Unit := fun s =>
  if s.size < s.limit then
    .ok () { s with items := s.items.push v }
  else
    .error .stackOverflow s

def last : StackM α α := fun s =>
  match s.items.back? with
  | some v => .ok v s
  | none => .error .stackUnderflow s

def pop : StackM α α := fun s =>
  match s.items.back? with
  | some v => .ok v { s with items := s.items.pop }
  | none => .error .stackUnderflow s

def pop2 : StackM α (α × α) := do
  let second ← pop
  let first ← pop
  return (first, second)

def window (skip len : Nat) : StackM α (List α) := fun s =>
  if skip + len ≤ s.size then
    .ok (s.items.extract (s.size - skip - len) (s.size - skip)).toList s
  else
    .error .stackUnderflow s

def drop (len : Nat) : StackM α Unit := fun s =>
  if len ≤ s.size then
    .ok () { s with items := s.items.shrink (s.size - len) }
  else
    .error .stackUnderflow s

end Stack
end Handheld
