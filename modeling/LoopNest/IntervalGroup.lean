import LoopNest.Interval
import LoopNest.LinearExtension
import LoopNest.SortedSet

namespace LoopNest

/-- The loops of a nest, outermost first, with chains of dimensions whose nesting order is fixed. A
built group is ordered by its chains. -/
structure IntervalGroup where
  intervals : List Interval
  relations : SortedSet (List Dimension)
deriving DecidableEq

inductive Combination where
  | intersection
  | union
deriving DecidableEq

namespace Combination

def ofName? : String → Option Combination
  | "intersection" => some intersection
  | "union" => some union
  | _ => none

def combine : Combination → Interval → Interval → Except Error Interval
  | intersection => Interval.intersection
  | union => Interval.union

end Combination

def firstRepeated? {α : Type} [DecidableEq α] (seen : List α) : List α → Option α
  | [] => none
  | a :: rest => if a ∈ seen then some a else firstRepeated? (a :: seen) rest

namespace IntervalGroup

def empty : IntervalGroup := ⟨[], .empty⟩

instance : Inhabited IntervalGroup := ⟨empty⟩

def ofIntervals (intervals : List Interval) : IntervalGroup := ⟨intervals, .empty⟩

def dimensions (g : IntervalGroup) : List Dimension := g.intervals.map Interval.dim

def find? (g : IntervalGroup) (d : Dimension) : Option Interval :=
  g.intervals.find? (·.dim = d)

def indexOf? (g : IntervalGroup) (d : Dimension) : Option Nat :=
  g.intervals.findIdx? (·.dim = d)

def text (g : IntervalGroup) : String :=
  "[" ++ ", ".intercalate (g.intervals.map Interval.text) ++ "]"

/-- The neighbours along a chain; a dimension does not precede itself. -/
def chainPairs (chain : List Dimension) : List (Dimension × Dimension) :=
  (chain.zip chain.tail).filter fun p => p.1 ≠ p.2

def absentDimensions (present : List Dimension) (relations : List (List Dimension)) :
    List Dimension :=
  (relations.flatten.filter (· ∉ present)).eraseDups

/-- The intervals ordered by the chains. Dimensions that only the chains mention take part, before
the others, so that they order those around them. -/
def arrange (intervals : List Interval) (relations : SortedSet (List Dimension)) :
    Except Error (List Interval) :=
  let present := intervals.map Interval.dim
  let absent := absentDimensions present relations.toList
  match linearExtension? (absent ++ present) (relations.toList.flatMap chainPairs) with
  | some order => .ok (order.filterMap fun d => intervals.find? (·.dim = d))
  | none =>
    let names := ", ".intercalate ((present ++ absent).map Dimension.name)
    .error (.internal .cyclicRelations s!"nesting relations over [{names}] contain a cycle")

/-- The group of the intervals, each over a dimension of its own, ordered by the chains. -/
def build (intervals : List Interval) (relations : List (List Dimension)) :
    Except Error IntervalGroup :=
  let relations := SortedSet.ofList (relations.filter (1 < ·.length))
  match firstRepeated? [] (intervals.map Interval.dim) with
  | some d => .error (.internal .dimensionMismatch
      s!"dimension `{d.name}` appears twice in an interval group")
  | none => do return ⟨← arrange intervals relations, relations⟩

def combineOver (how : Combination) (groups : List IntervalGroup) (d : Dimension) :
    Except Error (Option Interval) :=
  match groups.filterMap (·.find? d) with
  | [] => .ok none
  | i :: rest => some <$> rest.foldlM how.combine i

/-- Combines groups dimension by dimension, in the order in which the dimensions first occur. -/
def generate (how : Combination) (groups : List IntervalGroup) : Except Error IntervalGroup := do
  let dims := (groups.flatMap dimensions).eraseDups
  let intervals ← dims.mapM (combineOver how groups)
  build (intervals.filterMap id) (groups.flatMap (·.relations.toList))

def missingInterval (g : IntervalGroup) (d : Dimension) : Error :=
  .internal .missingInterval s!"no interval over `{d.name}` in {g.text}"

def replace (g : IntervalGroup) (i : Interval) : Except Error IntervalGroup :=
  match g.indexOf? i.dim with
  | some k => .ok { g with intervals := g.intervals.set k i }
  | none => .error (g.missingInterval i.dim)

def switch (g : IntervalGroup) (old new : Dimension) : IntervalGroup where
  intervals := g.intervals.map fun i => if i.dim = old then i.switch new else i
  relations := .ofList (g.relations.toList.map fun r => r.map fun d => if d = old then new else d)

/-- Puts several intervals in the place of one. In the chains the first of them takes its part. -/
def expand (g : IntervalGroup) (old : Dimension) (new : List Interval)
    (extra : List (List Dimension)) : Except Error IntervalGroup :=
  match g.indexOf? old, new with
  | none, _ => .error (g.missingInterval old)
  | some _, [] => .error (.internal .missingInterval
      s!"`{old.name}` must be replaced by at least one interval")
  | some k, head :: _ =>
    build (g.intervals.take k ++ new ++ g.intervals.drop (k + 1))
      (g.relations.toList.map (·.map fun d => if d = old then head.dim else d) ++ extra)

end IntervalGroup
end LoopNest
