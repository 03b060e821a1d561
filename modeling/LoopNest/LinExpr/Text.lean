import LoopNest.LinExpr.Basic

namespace LoopNest

def intText (n : Int64) : String := toString n.toInt

namespace LinExpr

/-- A term without its operator: unit coefficients leave no digit. -/
def termText (s : String) (c : Int64) : String :=
  if c = 1 then s else if c = -1 then "-" ++ s else intText c ++ "*" ++ s

/-- The summands, of which the constant is one unless it is zero beside others. -/
def parts (e : LinExpr) : List String :=
  let terms := e.terms.entries.map fun t => termText t.1 t.2
  if e.constant ≠ 0 ∨ terms = [] then terms ++ [intText e.constant] else terms

/-- Turns every addition of a negative summand into a subtraction. -/
def contractSigns : List Char → List Char
  | '+' :: ' ' :: '-' :: rest => '-' :: ' ' :: contractSigns rest
  | c :: rest => c :: contractSigns rest
  | [] => []

def text (e : LinExpr) : String :=
  String.ofList (contractSigns (" + ".intercalate e.parts).toList)

end LinExpr
end LoopNest
