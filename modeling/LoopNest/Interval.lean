import LoopNest.Dimension.Order
import LoopNest.LinExpr.Bound

namespace LoopNest

/-- A range over a dimension, or the empty set over it. Over `x`, the offsets `-1` and `1` stand for
the points from `x_m - 1` to `x_M + 1`. -/
inductive Interval where
  | closed (dim : Dimension) (lower upper : LinExpr)
  | null (dim : Dimension)
deriving DecidableEq

namespace Interval

instance : Inhabited Interval := ⟨null default⟩

def dim : Interval → Dimension
  | closed dim _ _ => dim
  | null dim => dim

def isNull : Interval → Bool
  | closed _ _ _ => false
  | null _ => true

def bounds? : Interval → Option (LinExpr × LinExpr)
  | closed _ lower upper => some (lower, upper)
  | null _ => none

def lower? (i : Interval) : Option LinExpr := i.bounds?.map Prod.fst

def upper? (i : Interval) : Option LinExpr := i.bounds?.map Prod.snd

def switch (i : Interval) (dim : Dimension) : Interval :=
  match i with
  | closed _ lower upper => closed dim lower upper
  | null _ => null dim

def zero (i : Interval) : Interval := closed i.dim .zero .zero

def translate (i : Interval) (lower upper : LinExpr) : Except Failure Interval :=
  match i with
  | closed dim l u => do return closed dim (← l.add lower) (← u.add upper)
  | null dim => .ok (null dim)

def text : Interval → String
  | closed dim lower upper => s!"{dim.name}[{lower.text}, {upper.text}]"
  | null dim => s!"{dim.name}[]"

def checkSameDim (i j : Interval) (operation : String) : Except Error Unit :=
  if i.dim = j.dim then .ok ()
  else .error (.internal .dimensionMismatch
    s!"cannot compute {operation} of {i.text} and {j.text}")

/-- The tightest range contained in both. -/
def intersection (i j : Interval) : Except Error Interval := do
  i.checkSameDim j "intersection"
  match i.bounds?, j.bounds? with
  | some (l₁, u₁), some (l₂, u₂) =>
    let lower ← l₁.maxBound l₂
    let upper ← u₁.minBound u₂
    return if lower.compareBound upper = .gt then null i.dim else closed i.dim lower upper
  | _, _ => return null i.dim

/-- The smallest range containing both. -/
def union (i j : Interval) : Except Error Interval := do
  i.checkSameDim j "union"
  match i.bounds?, j.bounds? with
  | some (l₁, u₁), some (l₂, u₂) => return closed i.dim (← l₁.minBound l₂) (← u₁.maxBound u₂)
  | some _, none => return i
  | none, _ => return j

/-- Whether the second lies within the first. -/
def contains (i j : Interval) : Except Error Bool := do
  i.checkSameDim j "containment"
  match i.bounds?, j.bounds? with
  | _, none => return true
  | none, some _ => return false
  | some (l₁, u₁), some (l₂, u₂) =>
    let low ← l₁.ordered l₂
    let high ← u₁.ordered u₂
    return low ≠ .gt ∧ high ≠ .lt

/-- The absolute first and last iteration points, unless null. -/
def extent (i : Interval) : Except Failure (Option (LinExpr × LinExpr)) :=
  match i with
  | closed dim lower upper => do
    return some (← (← dim.min).add lower, ← (← dim.max).add upper)
  | null _ => .ok none

def checkRemainder (i j : Interval) : Except Error Unit :=
  if i.dim = j.dim then .ok ()
  else .error (.internal .dimensionMismatch
    s!"cannot compute a remainder of {i.text} against {j.text}")

def orderRemainder (a b : LinExpr) : Except Error BoundOrder :=
  match a.compareBound b with
  | .incomparable =>
    .error (.internal .incomparableBounds
      s!"cannot order remainder bounds `{a.text}` and `{b.text}`")
  | order => .ok order

/-- The part of the first strictly below the second. -/
def leftRemainder (i j : Interval) : Except Failure Interval := do
  i.checkRemainder j
  match i.lower?, j.lower? with
  | some l₁, some l₂ =>
    match ← orderRemainder l₁ l₂ with
    | .lt => return closed i.dim l₁ (← l₂.subInt 1)
    | _ => return null i.dim
  | _, _ => return null i.dim

/-- The part of the first strictly above the second. -/
def rightRemainder (i j : Interval) : Except Failure Interval := do
  i.checkRemainder j
  match i.upper?, j.upper? with
  | some u₁, some u₂ =>
    match ← orderRemainder u₁ u₂ with
    | .gt => return closed i.dim (← u₂.addInt 1) u₁
    | _ => return null i.dim
  | _, _ => return null i.dim

end Interval
end LoopNest
