import Handheld.Source.Cursor
import Handheld.Source.Storage

/-!
Constant expressions, evaluated while they are read, with the arithmetic of the machine. Both sides of a
condition are read and have to be constant.
-/
namespace Handheld.Source

open Read

namespace Constant

mutual

def ternary (macros : Macros) : Nat → Read Int32
  | 0 => throw Problem.internal.anywhere
  | fuel + 1 => do
    let cond ← binary macros fuel 1
    if ← eat (.punct .question) then
      let yes ← ternary macros fuel
      let _ ← expect (.punct .colon)
      let no ← ternary macros fuel
      return if cond != 0 then yes else no
    else
      return cond

def binary (macros : Macros) : Nat → Nat → Read Int32
  | 0, _ => throw Problem.internal.anywhere
  | fuel + 1, least => do
    let left ← unary macros fuel
    binaryRest macros fuel least left

def binaryRest (macros : Macros) : Nat → Nat → Int32 → Read Int32
  | 0, _, _ => throw Problem.internal.anywhere
  | fuel + 1, least, left => do
    match (← peek).token with
    | .op op =>
      match op.precedence with
      | some prec =>
        if least ≤ prec then
          let _ ← next
          let right ← binary macros fuel (prec + 1)
          binaryRest macros fuel least (op.apply left right)
        else
          return left
      | none => return left
    | _ => return left

def unary (macros : Macros) : Nat → Read Int32
  | 0 => throw Problem.internal.anywhere
  | fuel + 1 => do
    let l ← next
    match l.token with
    | .int n => return n
    | .op (.binary .sub) => return -(← unary macros fuel)
    | .op (.binary .add) => unary macros fuel
    | .op .tilde => return ~~~(← unary macros fuel)
    | .op .bang => return truth ((← unary macros fuel) == 0)
    | .punct .lParen =>
      let v ← ternary macros fuel
      let _ ← expect (.punct .rParen)
      return v
    | .ident name =>
      match macros.lookup name with
      | some (.int n) => return n
      | some (.text _) => throw ((Problem.stringMacro name).inSpan l.span)
      | none => throw ((Problem.notConstant name).inSpan l.span)
    | _ => throw (l.unexpected "a constant")

end

end Constant

def constant (macros : Macros) : Read Int32 := do
  let c ← get
  Constant.ternary macros (4 * (c.rest.length + 2))

end Handheld.Source
