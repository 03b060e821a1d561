import LoopNest.DataSpace
import LoopNest.Expr
import LoopNest.IterationSpace

namespace LoopNest

/-- `lhs = rhs` at every point of the iteration space. -/
structure Equation where
  lhs : Access
  rhs : Expr
  ispace : IterationSpace
  dspace : DataSpace
deriving DecidableEq, Inhabited

namespace Equation

def write (e : Equation) : String := e.lhs.array

def reads (e : Equation) : SortedSet String := .ofList (e.rhs.accesses.map Access.array)

def text (e : Equation) : String := e.lhs.text ++ " = " ++ e.rhs.text

/-- Replaces index variables in both sides; the spaces stay. -/
def substitute (e : Equation) (mapping : Substitution) : Except Failure Equation := do
  return { e with lhs := ← e.lhs.substitute mapping, rhs := ← e.rhs.substitute mapping }

end Equation
end LoopNest
