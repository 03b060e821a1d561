import LoopNest.LinExpr.Order

namespace LoopNest

/-- The part of a dimension that a slab covers, relative to the ends of its parent. -/
inductive Region where
  | left (thickness : LinExpr)
  | middle (leftThickness rightThickness : LinExpr)
  | right (thickness : LinExpr)
deriving DecidableEq

/-- A basic dimension `d` runs over `d_m … d_M`; a block and a slab are derived from a parent, which
they keep. -/
inductive Dimension where
  | basic (name : String)
  | block (name : String) (parent : Dimension) (min max step : LinExpr)
  | sub (name : String) (parent : Dimension) (region : Region)
deriving DecidableEq

inductive Side where
  | lower
  | upper
deriving DecidableEq

namespace Dimension

instance : Inhabited Dimension := ⟨basic ""⟩

def name : Dimension → String
  | basic name => name
  | block name _ _ _ _ => name
  | sub name _ _ => name

def symbol (d : Dimension) : LinExpr := .symbol d.name

def isBlock : Dimension → Bool
  | block _ _ _ _ _ => true
  | _ => false

def isMiddle : Dimension → Bool
  | sub _ _ (.middle _ _) => true
  | _ => false

def parent? : Dimension → Option Dimension
  | basic _ => none
  | block _ parent _ _ _ => some parent
  | sub _ parent _ => some parent

/-- The dimension itself, its parent, the parent's parent, up to a basic dimension. -/
def lineage : Dimension → List Dimension
  | d@(basic _) => [d]
  | d@(block _ parent _ _ _) => d :: parent.lineage
  | d@(sub _ parent _) => d :: parent.lineage

def root : Dimension → Dimension
  | d@(basic _) => d
  | block _ parent _ _ _ => parent.root
  | sub _ parent _ => parent.root

def sharesRoot (d e : Dimension) : Bool := d.root = e.root

def step : Dimension → LinExpr
  | block _ _ _ _ step => step
  | _ => .int 1

def bound : Dimension → Side → Except Failure LinExpr
  | basic name, .lower => .ok (.symbol (name ++ "_m"))
  | basic name, .upper => .ok (.symbol (name ++ "_M"))
  | block _ _ min _ _, .lower => .ok min
  | block _ _ _ max _, .upper => .ok max
  | sub _ parent (.left _), .lower => parent.bound .lower
  | sub _ parent (.left thickness), .upper => do
    ((← (← parent.bound .lower).add thickness).subInt 1)
  | sub _ parent (.middle left _), .lower => do (← parent.bound .lower).add left
  | sub _ parent (.middle _ right), .upper => do (← parent.bound .upper).sub right
  | sub _ parent (.right thickness), .lower => do
    ((← (← parent.bound .upper).sub thickness).addInt 1)
  | sub _ parent (.right _), .upper => parent.bound .upper

def min (d : Dimension) : Except Failure LinExpr := d.bound .lower

def max (d : Dimension) : Except Failure LinExpr := d.bound .upper

def sizeParameter? : Dimension → Option String
  | block _ _ _ _ step => step.freeSymbols.head?
  | _ => none

def sizeName (name : String) : String := name ++ "_size"

/-- The outermost block over a dimension: all of it, in steps of the block's own parameter. -/
def blockOver (name : String) (parent : Dimension) : Except Failure Dimension := do
  return block name parent (← parent.min) (← parent.max) (.symbol (sizeName name))

/-- A block inside one step of another; without a given step it has its own parameter. -/
def blockWithin (name : String) (outer : Dimension) (step : Option LinExpr) :
    Except Failure Dimension := do
  let last ← (← outer.symbol.add outer.step).subInt 1
  return block name outer outer.symbol last (step.getD (.symbol (sizeName name)))

end Dimension
end LoopNest
