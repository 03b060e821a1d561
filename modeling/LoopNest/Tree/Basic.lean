import LoopNest.Equation
import LoopNest.Properties

namespace LoopNest

structure LoopHead where
  dim : Dimension
  lower : LinExpr
  upper : LinExpr
  step : LinExpr
  direction : Direction
  properties : SortedSet Property
deriving DecidableEq

namespace LoopHead

def isParallel (h : LoopHead) : Bool := h.properties.toList.any Property.isParallel

def isSequential (h : LoopHead) : Bool := h.properties.contains .sequential

def symbols (h : LoopHead) : List String :=
  h.lower.freeSymbols ++ h.upper.freeSymbols ++ h.step.freeSymbols

end LoopHead

structure Call where
  name : String
  args : List LinExpr
deriving DecidableEq

inductive Node where
  | loop (head : LoopHead) (body : List Node)
  | bundle (equations : List Equation)
  | call (c : Call)
  | list (nodes : List Node)
  | routine (name : String) (parameters : List String) (body : List Node)

namespace Node

instance : Inhabited Node := ⟨list []⟩

mutual

/-- The heads of all loops, outer before inner, in reading order. -/
def loops : Node → List LoopHead
  | loop head body => head :: loopsList body
  | bundle _ | call _ => []
  | list nodes => loopsList nodes
  | routine _ _ body => loopsList body

def loopsList : List Node → List LoopHead
  | [] => []
  | n :: ns => n.loops ++ loopsList ns

end

inductive Leaf where
  | bundle (equations : List Equation)
  | call (c : Call)
deriving DecidableEq

mutual

/-- Every leaf in reading order with the loops around it, outermost first. -/
def leavesUnder (outer : List LoopHead) : Node → List (List LoopHead × Leaf)
  | loop head body => leavesUnderList (outer ++ [head]) body
  | bundle equations => [(outer, .bundle equations)]
  | call c => [(outer, .call c)]
  | list nodes => leavesUnderList outer nodes
  | routine _ _ body => leavesUnderList outer body

def leavesUnderList (outer : List LoopHead) : List Node → List (List LoopHead × Leaf)
  | [] => []
  | n :: ns => n.leavesUnder outer ++ leavesUnderList outer ns

end

def leaves (n : Node) : List (List LoopHead × Leaf) := n.leavesUnder []

def callOf (name : String) (parameters : List String) : Call :=
  ⟨name, parameters.map LinExpr.symbol⟩

end Node
end LoopNest
