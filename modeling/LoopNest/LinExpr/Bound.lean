import LoopNest.LinExpr.Text

namespace LoopNest

inductive BoundOrder where
  | lt
  | eq
  | gt
  | incomparable
deriving DecidableEq

namespace LinExpr

/-- Orders two bounds; a difference that depends on symbols or overflows leaves them unordered. -/
def compareBound (a b : LinExpr) : BoundOrder :=
  match (a.sub? b).bind asLiteral with
  | some d => if d < 0 then .lt else if d = 0 then .eq else .gt
  | none => .incomparable

def ordered (a b : LinExpr) : Except Error BoundOrder :=
  match a.compareBound b with
  | .incomparable =>
    .error (.internal .incomparableBounds s!"cannot order bounds `{a.text}` and `{b.text}`")
  | order => .ok order

/-- The larger of two bounds, the first if they are equal. -/
def maxBound (a b : LinExpr) : Except Error LinExpr := do
  return if (← a.ordered b) = .lt then b else a

def minBound (a b : LinExpr) : Except Error LinExpr := do
  return if (← a.ordered b) = .gt then b else a

end LinExpr
end LoopNest
