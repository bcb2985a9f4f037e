import Handheld.Proofs.Arith
import Handheld.Source.Tree
import Mathlib.Logic.Function.Basic

/-!
The meaning of expressions over numbers: their value, and what they leave in the variables.
-/
namespace Handheld.Source

inductive Cell where
  | global (name : String)
  | frame (name : String)
  deriving DecidableEq, Repr

structure Number where
  cell : Cell
  base : Base
  deriving DecidableEq, Repr

abbrev Scope := String → Option Number

abbrev Store := Cell → Int32

def Number.fit (v : Number) (n : Int32) : Int32 :=
  Int32.ofInt (v.base.width.fit n.toInt)

def Unary.meaning : Unary → Int → Int
  | neg, a => -a
  | not, a => truthInt (a = 0)
  | complement, a => -a - 1
  | _, a => a

def Expr.target? : Expr → Option String
  | .name x _ => some x
  | .comma _ right => right.target?
  | _ => none

def Scope.assign (scope : Scope) (x : Option String) (n : Int32) (σ : Store) : Int32 × Store :=
  match x.bind scope with
  | some v => (v.fit n, Function.update σ v.cell (v.fit n))
  | none => (0, σ)

def Expr.eval (scope : Scope) : Expr → Store → Int32 × Store
  | .num n, σ => (n, σ)
  | .name x _, σ =>
    match scope x with
    | some v => (v.fit (σ v.cell), σ)
    | none => (0, σ)
  | .unary op _ e, σ =>
    let (a, σ) := e.eval scope σ
    (Int32.ofInt (op.meaning a.toInt), σ)
  | .step up before _ e, σ =>
    let (old, σ) := e.eval scope σ
    let (new, σ) := scope.assign e.target? (Int32.ofInt (old.toInt + if up then 1 else -1)) σ
    (if before then new else old, σ)
  | .binary op _ left right, σ =>
    let (a, σ) := left.eval scope σ
    let (b, σ) := right.eval scope σ
    (Int32.ofInt (op.meaning a.toInt b.toInt), σ)
  | .logic both _ left right, σ =>
    let (a, σ) := left.eval scope σ
    if (a != 0) == both then
      let (b, σ) := right.eval scope σ
      (truth (b != 0), σ)
    else
      (truth (a != 0), σ)
  | .ternary _ cond yes no, σ =>
    let (a, σ) := cond.eval scope σ
    if a != 0 then yes.eval scope σ else no.eval scope σ
  | .assign _ left right, σ =>
    let (_, σ) := left.eval scope σ
    let (b, σ) := right.eval scope σ
    scope.assign left.target? b σ
  | .update op _ left right, σ =>
    -- the old value is read before the right operand is evaluated
    let (a, σ) := left.eval scope σ
    let (b, σ) := right.eval scope σ
    scope.assign left.target? (Int32.ofInt (op.meaning a.toInt b.toInt)) σ
  | .comma left right, σ =>
    let (_, σ) := left.eval scope σ
    right.eval scope σ
  | _, σ => (0, σ)

def Unary.isNumeric : Unary → Bool
  | neg | plus | not | complement => true
  | deref | address => false

def Expr.isNumeric (scope : Scope) : Expr → Bool
  | .num _ => true
  | .name x _ => (scope x).isSome
  | .step _ _ _ e => e.isNumeric scope
  | .unary op _ e => op.isNumeric && e.isNumeric scope
  | .binary _ _ left right | .logic _ _ left right | .assign _ left right | .update _ _ left right
  | .comma left right => left.isNumeric scope && right.isNumeric scope
  | .ternary _ cond yes no => cond.isNumeric scope && yes.isNumeric scope && no.isNumeric scope
  | _ => false

def Expr.height : Expr → Nat
  | .step _ _ _ e | .unary _ _ e => e.height
  | .binary _ _ left right | .assign _ left right => max left.height (1 + right.height)
  | .update _ _ left right => max left.height (2 + right.height)
  | .logic _ _ left right | .comma left right => max left.height right.height
  | .ternary _ cond yes no => max cond.height (max yes.height no.height)
  | _ => 1

theorem Expr.height_pos (e : Expr) : 0 < e.height := by
  fun_induction Expr.height e <;> omega

end Handheld.Source
