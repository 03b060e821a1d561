import LoopNest.Dependence
import LoopNest.Queue
import LoopNest.Tree.Basic

namespace LoopNest
namespace Node

/-- Adds a cluster to the parts of a run, listed latest first, each with the dependences inside it.
A dependence against the loop order starts a new part. -/
def addToParts (loops : List IterationInterval) (parts : List (List Cluster × List Distance))
    (c : Cluster) : Except Failure (List (List Cluster × List Distance)) :=
  match parts with
  | [] => .ok [([c], [])]
  | (part, deps) :: done => do
    let found ← part.mapM fun earlier => dependences earlier c loops
    if found.flatten.any Distance.isReversed then return ([c], []) :: (part, deps) :: done
    else return (part ++ [c], deps ++ found.flatten) :: done

/-- Neighbours with the same outer loops share them, up to a cluster that would touch an element
before an earlier one does. -/
def share (loops : List IterationInterval) (run : List Cluster) :
    Except Failure (List (List Cluster × List Distance)) :=
  List.reverse <$> run.foldlM (addToParts loops) []

/-- Neighbours with the same outer loops share them, up to a cluster that would touch an element
before an earlier one does. -/
def sharedTags (part : List Cluster) (deps : List Distance) (d : Dimension) :
    SortedSet Property :=
  let merged := part.foldl (fun p c => p.merge c.properties) Properties.empty
  (merged.narrow [d] deps).of d

/-- The head of a loop; a null interval has no range to run over. -/
def headOf (l : IterationInterval) (tags : SortedSet Property) : Except Failure LoopHead := do
  match ← l.interval.extent with
  | some (lower, upper) => return ⟨l.dim, lower, upper, l.dim.step, l.direction, tags⟩
  | none => throw (.error (.internal .missingInterval
      s!"no iteration range for `{l.dim.name}`"))

/-- The nodes for clusters whose first `depth` loops are built already, at most the given number of
levels deep. -/
def nest : Nat → Nat → List Cluster → Except Failure (List Node)
  | 0, _, clusters => .ok (clusters.map fun c => bundle c.equations)
  | levels + 1, depth, clusters => do
    let nodes ← (Queue.groupRuns Cluster.loops (depth + 1) clusters).mapM fun (key, run) =>
      match key[depth]? with
      | none => .ok (run.map fun c => bundle c.equations)
      | some l => do
        (← share key run).mapM fun (part, deps) => do
          let body ← nest levels (depth + 1) part
          return loop (← headOf l (sharedTags part deps l.dim)) body
    return nodes.flatten

def parameters (body : List Node) : List String :=
  let heads := loopsList body
  let indices := heads.map (·.dim.name)
  (SortedSet.ofList ((heads.flatMap LoopHead.symbols).filter (· ∉ indices))).toList

def kernelName : String := "Kernel"

/-- The tree of the clusters: one routine around all of them. -/
def build (clusters : List Cluster) : Except Failure Node := do
  let body ← nest (Queue.maxDepth Cluster.loops clusters) 0 clusters
  return routine kernelName (parameters body) body

end Node
end LoopNest
