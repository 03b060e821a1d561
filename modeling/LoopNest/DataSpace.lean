import LoopNest.IntervalGroup
import LoopNest.SortedMap

namespace LoopNest

structure DataSpace where
  intervals : IntervalGroup
  parts : SortedMap String IntervalGroup
deriving DecidableEq

namespace DataSpace

def empty : DataSpace := ⟨.empty, .empty⟩

instance : Inhabited DataSpace := ⟨empty⟩

def partsOf (spaces : List DataSpace) (array : String) : List IntervalGroup :=
  spaces.filterMap (·.parts.find? array)

/-- The smallest footprint enclosing all of the given ones. -/
def union (spaces : List DataSpace) : Except Error DataSpace := do
  let intervals ← IntervalGroup.generate .union (spaces.map intervals)
  let arrays := (SortedSet.ofList (spaces.flatMap (·.parts.keys))).toList
  let parts ← arrays.mapM fun a => (a, ·) <$> IntervalGroup.generate .union (partsOf spaces a)
  return ⟨intervals, .ofList parts⟩

/-- Moves the interval over one dimension to another and shifts it; a group without it stays. -/
def remapGroup (old new : Dimension) (lower upper : LinExpr) (g : IntervalGroup) :
    Except Failure IntervalGroup :=
  match g.find? old with
  | some i => do (g.switch old new).replace (← (i.switch new).translate lower upper)
  | none => .ok g

/-- Moves every footprint over one dimension to another and shifts its bounds. -/
def remap (s : DataSpace) (old new : Dimension) (lower upper : LinExpr) :
    Except Failure DataSpace := do
  let intervals ← remapGroup old new lower upper s.intervals
  return ⟨intervals, ← s.parts.mapValuesM (remapGroup old new lower upper)⟩

end DataSpace
end LoopNest
