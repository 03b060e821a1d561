import LoopNest.Dependence
import LoopNest.Queue

namespace LoopNest
namespace Fusion

/-- The errors that only mean that two clusters have to stay apart. -/
def keepsApart (e : Error) : Bool :=
  e.internalKind? = some .incompatibleSpaces ∨ e.internalKind? = some .cyclicRelations

/-- The single cluster that two neighbours make, unless a dependence would run against the loop
order or has no known distance. A loop that carries a dependence afterwards loses its parallel tags.
-/
def join? (a b : Cluster) : Except Failure (Option Cluster) :=
  if a.loops ≠ b.loops ∨ ¬a.ispace.isCompatible b.ispace then .ok none
  else do
    let deps ← dependences a b a.loops
    if deps.any fun d => d.isUnknown || d.isReversed then return none
    match Cluster.ofClusters [a, b] with
    | .ok c => return some { c with properties := c.properties.narrow c.dimensions deps }
    | .error e => if keepsApart e then return none else throw (.error e)

/-- Joins a cluster to the latest of the earlier ones, listed latest first, if that is possible. -/
def joinLatest (done : List Cluster) (c : Cluster) : StateT Nat (Except Failure) (List Cluster) :=
  match done with
  | [] => return [c]
  | last :: earlier => do
    match ← join? last c with
    | some joined =>
      modify (· + 1)
      return joined :: earlier
    | none => return c :: last :: earlier

/-- Merges neighbours greedily, first to last. -/
def fuse (clusters : List Cluster) : StateT Nat (Except Failure) (List Cluster) :=
  List.reverse <$> clusters.foldlM joinLatest []

def callback (groups : List ClusterGroup) (outer : List IterationInterval) :
    StateT Nat (Except Failure) (List ClusterGroup) :=
  (runsBy ClusterGroup.loops groups).mapM fun (_, run) =>
    match run with
    | [g] => return g
    | _ => do return ⟨← fuse (ClusterGroup.concat run), outer⟩

/-- Fuses clusters; the state counts the clusters merged away. -/
def apply (clusters : List Cluster) : StateT Nat (Except Failure) (List Cluster) :=
  Queue.processGroups callback clusters

end Fusion
end LoopNest
