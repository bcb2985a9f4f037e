/-!
Finite tables as lists of pairs, one pair for a key.
-/
namespace Handheld.Table

variable {α β : Type} [BEq α]

def erase (t : List (α × β)) (key : α) : List (α × β) :=
  t.filter fun (k, _) => k != key

def insert (t : List (α × β)) (key : α) (value : β) : List (α × β) :=
  (key, value) :: erase t key

def contains (t : List (α × β)) (key : α) : Bool :=
  (t.lookup key).isSome

end Handheld.Table
