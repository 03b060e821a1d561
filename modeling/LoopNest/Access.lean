import LoopNest.LinExpr.Order
import LoopNest.LinExpr.Text

namespace LoopNest

/-- An array element named by linear subscripts. -/
structure Access where
  array : String
  indices : List LinExpr
deriving DecidableEq, Inhabited

/-- How two accesses relate across the iterations of their index variables. -/
inductive AccessDistance where
  /-- They never touch the same element. -/
  | disjoint
  /-- They touch the same element when the second runs at the index values of the first plus
  these. -/
  | uniform (offsets : SortedMap String Int64)
  /-- No constant distance is known. -/
  | unknown
deriving DecidableEq

namespace Access

def text (a : Access) : String :=
  a.array ++ "[" ++ ", ".intercalate (a.indices.map LinExpr.text) ++ "]"

def substitute (a : Access) (mapping : Substitution) : Except Failure Access := do
  return { a with indices := ← a.indices.mapM (·.substitute mapping) }

def element (a : Access) (v : String → Int) : String × List Int :=
  (a.array, a.indices.map (·.denote v))

/-- Extends the distance by one pair of subscripts. Only subscripts `i + c` and bare constants are
understood, and one variable has one offset. -/
def distanceAlong (offsets : SortedMap String Int64) : List (LinExpr × LinExpr) → AccessDistance
  | [] => .uniform offsets
  | (a, b) :: rest =>
    match (a.sub? b).bind LinExpr.asLiteral with
    | none => .unknown
    | some d =>
      match a.freeSymbols with
      | [] => if d = 0 then distanceAlong offsets rest else .disjoint
      | [s] =>
        if a.coeff s = 1 then
          match offsets.find? s with
          | none => distanceAlong (offsets.insert s d) rest
          | some known => if known = d then distanceAlong offsets rest else .disjoint
        else .unknown
      | _ => .unknown

/-- The distance from one access to another. -/
def distance (a b : Access) : AccessDistance :=
  if a.array ≠ b.array then .disjoint
  else if a.indices.length ≠ b.indices.length then .unknown
  else distanceAlong .empty (a.indices.zip b.indices)

end Access
end LoopNest
