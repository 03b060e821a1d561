import LoopNest.Cluster

namespace LoopNest

structure ClusterGroup where
  clusters : List Cluster
  loops : List IterationInterval
deriving DecidableEq

namespace ClusterGroup

def ofCluster (c : Cluster) : ClusterGroup := ⟨[c], c.loops⟩

def writes (g : ClusterGroup) : SortedSet String :=
  .ofList (g.clusters.flatMap (·.writes.toList))

def reads (g : ClusterGroup) : SortedSet String :=
  .ofList (g.clusters.flatMap (·.reads.toList))

/-- Whether one of the groups writes an array that the other accesses. -/
def dependsOn (g h : ClusterGroup) : Bool :=
  !g.writes.disjoint h.reads || !g.reads.disjoint h.writes || !g.writes.disjoint h.writes

def concat (groups : List ClusterGroup) : List Cluster := groups.flatMap clusters

end ClusterGroup
end LoopNest
