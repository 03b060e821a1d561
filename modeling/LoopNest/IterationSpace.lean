import LoopNest.IntervalGroup
import LoopNest.SortedMap

namespace LoopNest

inductive Direction where
  | forward
  | backward
deriving DecidableEq, Inhabited

namespace Direction

def text : Direction → String
  | forward => "++"
  | backward => "--"

def name : Direction → String
  | forward => "Forward"
  | backward => "Backward"

end Direction

structure IterationInterval where
  interval : Interval
  direction : Direction
deriving DecidableEq, Inhabited

namespace IterationInterval

def dim (l : IterationInterval) : Dimension := l.interval.dim

def text (l : IterationInterval) : String := l.interval.text ++ l.direction.text

def pathText (path : List IterationInterval) : String := ", ".intercalate (path.map text)

end IterationInterval

/-- The shape of a loop nest. Dimensions without a listed direction run forward. -/
structure IterationSpace where
  intervals : IntervalGroup
  subIterators : SortedMap Dimension (List Dimension)
  directions : SortedMap Dimension Direction
deriving DecidableEq

namespace IterationSpace

instance : Inhabited IterationSpace := ⟨.empty, .empty, .empty⟩

def ofIntervals (g : IntervalGroup) : IterationSpace :=
  ⟨g, .empty, .ofList (g.dimensions.map (·, .forward))⟩

def dimensions (s : IterationSpace) : List Dimension := s.intervals.dimensions

def direction (s : IterationSpace) (d : Dimension) : Direction :=
  (s.directions.find? d).getD .forward

def loops (s : IterationSpace) : List IterationInterval :=
  s.intervals.intervals.map fun i => ⟨i, s.direction i.dim⟩

def text (s : IterationSpace) : String := "[" ++ IterationInterval.pathText s.loops ++ "]"

/-- Whether no dimension is listed with opposite directions. -/
def isCompatible (s t : IterationSpace) : Bool :=
  s.directions.entries.all fun e => (t.directions.find? e.1).all (· = e.2)

/-- Adds the iterators of one more space, each once per dimension. -/
def mergeSubIterators (known : SortedMap Dimension (List Dimension)) (s : IterationSpace) :
    SortedMap Dimension (List Dimension) :=
  s.subIterators.entries.foldl (fun m e =>
    m.insert e.1 (e.2.foldl (fun l i => if i ∈ l then l else l ++ [i]) ((m.find? e.1).getD [])))
    known

/-- Adds the directions of one more space, unless one of them contradicts a known one. -/
def mergeDirections (known : SortedMap Dimension Direction) (s : IterationSpace) :
    Except Error (SortedMap Dimension Direction) :=
  s.directions.entries.foldlM (fun m e =>
    match m.find? e.1 with
    | some existing =>
      if existing = e.2 then .ok m
      else .error (.internal .incompatibleSpaces
        s!"dimension `{e.1.name}` is traversed both {existing.name} and {e.2.name}")
    | none => .ok (m.insert e.1 e.2)) known

def union (spaces : List IterationSpace) : Except Error IterationSpace := do
  let intervals ← IntervalGroup.generate .union (spaces.map intervals)
  let directions ← spaces.foldlM mergeDirections .empty
  return ⟨intervals, spaces.foldl mergeSubIterators .empty, directions⟩

/-- Replaces a dimension by others, which inherit its direction; the innermost of them takes over
its iterators. -/
def expand (s : IterationSpace) (old : Dimension) (new : List Interval)
    (extra : List (List Dimension)) : Except Error IterationSpace := do
  let intervals ← s.intervals.expand old new extra
  let directions := (new.map Interval.dim).foldl (fun m d => m.insert d (s.direction old))
    (s.directions.erase old)
  let others := s.subIterators.erase old
  let subIterators :=
    match s.subIterators.find? old, new.getLast? with
    | some iterators, some last => others.insert last.dim iterators
    | _, _ => others
  return ⟨intervals, subIterators, directions⟩

def withIntervals (s : IterationSpace) (g : IntervalGroup) : IterationSpace :=
  { s with intervals := g }

end IterationSpace
end LoopNest
