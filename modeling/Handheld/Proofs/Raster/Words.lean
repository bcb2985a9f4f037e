import Handheld.Raster.Line
import Handheld.Raster.Shape

/-!
Lines and ellipses in words of fixed size: every operation is checked to fit.
-/
namespace Handheld.Raster

variable {bound n : Int} {α : Type}

def within (bound n : Int) : Option Int :=
  if -bound ≤ n ∧ n < bound then some n else none

abbrev in32 (n : Int) : Option Int := within 0x80000000 n
abbrev in64 (n : Int) : Option Int := within 0x8000000000000000 n
abbrev in128 (n : Int) : Option Int := within 0x80000000000000000000000000000000 n

theorem within_bind {f : Int → Option α} (h : -bound ≤ n ∧ n < bound) : (within bound n >>= f) = f n := by
  rw [within, if_pos h]
  rfl

def addIf? (condition : Prop) [Decidable condition] (n d : Int) : Option Int :=
  if condition then in32 (n + d) else some n

theorem addIf?_bind {condition : Prop} [Decidable condition] {d : Int} {f : Int → Option α}
    (h : condition → -0x80000000 ≤ n + d ∧ n + d < 0x80000000)
    : (addIf? condition n d >>= f) = f (if condition then n + d else n) := by
  unfold addIf?
  split
  next hcondition => exact within_bind (h hcondition)
  next => rfl

def walk? (s : Slope) : Nat → Int → Int → Int → Option (List Point)
  | 0, _, _, _ => none
  | rounds + 1, x, y, err => do
    if x == s.stopX && y == s.stopY then return [(x, y)]
    let twice ← in32 (2 * err)
    let err ← addIf? (twice ≥ s.dy) err s.dy
    let x' ← addIf? (twice ≥ s.dy) x s.stepX
    let err ← addIf? (twice ≤ s.dx) err s.dx
    let y' ← addIf? (twice ≤ s.dx) y s.stepY
    let points ← walk? s rounds x' y' err
    return (x, y) :: points

def linePoints? (rounds : Nat) (x0 y0 x1 y1 : Int) : Option (List Point) := do
  let dx ← in32 (x1 - x0)
  let dx ← in32 (absInt dx)
  let dy ← in32 (y1 - y0)
  let dy ← in32 (absInt dy)
  let dy ← in32 (-dy)
  let err ← in32 (dx + dy)
  walk? { slope x0 y0 x1 y1 with dx := dx, dy := dy } rounds x0 y0 err

def product? (a b c d : Int) : Option Int := do
  let n ← in128 (a * b)
  let n ← in128 (n * c)
  in128 (n * d)

def search? (ry limit : Int) : Nat → Int → Int → Option Int
  | 0, _, _ => none
  | rounds + 1, low, high => do
    if low < high then
      let mid ← in128 (low + high)
      let mid ← in128 (mid + 1)
      let mid ← in128 (mid.tdiv 2)
      let square ← product? mid mid ry ry
      if square ≤ limit then
        search? ry limit rounds mid high
      else
        let high ← in128 (mid - 1)
        search? ry limit rounds low high
    else
      return low

def span? (rx ry dy : Int) : Option Int := do
  if ry == 0 then return rx
  let whole ← product? rx rx ry ry
  let part ← product? dy dy rx rx
  let limit ← in128 (whole - part)
  if limit < 0 then return 0
  search? ry limit (rx.toNat + 1) 0 rx

def ends? (centre span : Int) : Option (Int × Int) := do
  let low ← in64 (centre - span)
  let high ← in64 (centre + span)
  return (low, high)

def visible? (ends : Int × Int) (length : Nat) : Option (List Int) := do
  let last ← in64 (length - 1)
  return interval (max ends.1 0) (min ends.2 last)

def clamp (n : Int) : Int :=
  max (-0x80000000) (min n 0x7FFFFFFF)

def clampPoint (p : Point) : Point :=
  (clamp p.1, clamp p.2)

def ellipseRow? (r : Raster) (cx cy rx ry : Int) (fill : Bool) (y : Int) : Option (List Point) := do
  let dy ← in64 (y - cy)
  let span ← span? rx ry dy
  let ends ← ends? cx span
  if fill then
    let xs ← visible? ends r.width
    return xs.map fun x => clampPoint (x, y)
  else
    return [clampPoint (ends.1, y), clampPoint (ends.2, y)]

def ellipseColumn? (cx cy rx ry : Int) (x : Int) : Option (List Point) := do
  let dx ← in64 (x - cx)
  let span ← span? ry rx dx
  let ends ← ends? cy span
  return [clampPoint (x, ends.1), clampPoint (x, ends.2)]

def ellipsePoints? (r : Raster) (cx cy rx ry : Int) (fill : Bool) : Option (List Point) := do
  let rx ← in64 (absInt rx)
  let ry ← in64 (absInt ry)
  let ends ← ends? cy ry
  let ys ← visible? ends r.height
  let rows ← ys.mapM (ellipseRow? r cx cy rx ry fill)
  if fill then return rows.flatten
  let ends ← ends? cx rx
  let xs ← visible? ends r.width
  let columns ← xs.mapM (ellipseColumn? cx cy rx ry)
  return rows.flatten ++ columns.flatten

def ellipse? (r : Raster) (cx cy rx ry : Int) (fill : Bool) (mode : Mode) : Option Raster :=
  (ellipsePoints? r cx cy rx ry fill).map (r.draw · mode)

end Handheld.Raster
