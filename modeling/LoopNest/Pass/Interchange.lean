import LoopNest.Queue

namespace LoopNest
namespace Interchange

/-- How many loops have moved, and for each enclosing level whether several clusters shared it. -/
structure State where
  moved : Nat
  shared : List Bool
deriving DecidableEq, Inhabited

def State.empty : State := ⟨0, []⟩

def State.pinnedDepth (s : State) : Nat :=
  s.shared.length - (s.shared.reverse.takeWhile (!·)).length

/-- Notes at a level whether its run has several clusters, and forgets the levels below. -/
def State.enter (s : State) (level : Nat) (isShared : Bool) : State :=
  { s with shared := s.shared.take (level - 1) ++ [isShared] }

/-- How many of the loops just outside position `pos` the loop over `d` may pass. -/
def hops (c : Cluster) (d : Dimension) (floor pos : Nat) : Nat :=
  (((c.dimensions.take pos).drop floor).reverse.takeWhile fun outer =>
    !c.properties.isParallel outer && !outer.sharesRoot d).length

def moveLoop (c : Cluster) (pos target : Nat) : Except Error Cluster := do
  let intervals := c.ispace.intervals.intervals
  let moved := intervals.take target ++ intervals[pos]?.toList ++
    (intervals.take pos).drop target ++ intervals.drop (pos + 1)
  let group ← IntervalGroup.build moved [moved.map Interval.dim]
  return { c with ispace := c.ispace.withIntervals group }

/-- A loop without any dependence component moves outward past loops that are not parallel. It
passes no loop of its own family and none that the cluster shares with another. -/
def promote? (c : Cluster) (outer : List IterationInterval) (floor : Nat) :
    Except Error (Option Cluster) :=
  match outer.getLast? with
  | none => .ok none
  | some l =>
    if !c.properties.isParallelIndep l.dim then .ok none
    else match c.ispace.intervals.indexOf? l.dim with
      | none => .error (.internal .missingInterval
          s!"prefix dimension `{l.dim.name}` not in {c.ispace.text}")
      | some pos =>
        let n := hops c l.dim floor pos
        if n = 0 then .ok none else some <$> moveLoop c pos (pos - n)

def expectPerfect (clusters : List Cluster) (outer : List IterationInterval) :
    Except Error Cluster :=
  match clusters with
  | [c] => .ok c
  | _ => .error (.internal .imperfectNest
      s!"expected a perfect nest at depth {outer.length}, found {clusters.length} Clusters")

def callback (clusters : List Cluster) (outer : List IterationInterval) :
    StateT State (Except Failure) (List Cluster) := do
  modify (·.enter outer.length (1 < clusters.length))
  match clusters with
  | [c] =>
    match ← promote? c outer (← get).pinnedDepth with
    | some promoted =>
      modify fun s => { s with moved := s.moved + 1 }
      return [promoted]
    | none => return [c]
  | _ => return clusters

/-- Interchanges loops; the state counts the loops moved. -/
def apply (clusters : List Cluster) : StateT State (Except Failure) (List Cluster) := do
  modify fun s => { s with shared := [] }
  Queue.applyFirst Cluster.loops callback (Queue.maxDepth Cluster.loops clusters) clusters 1

end Interchange
end LoopNest
