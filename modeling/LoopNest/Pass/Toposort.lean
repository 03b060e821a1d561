import LoopNest.Queue

namespace LoopNest
namespace Toposort

/-- A group moves up to the last earlier group under the same loops, provided it depends on none of
the groups it passes. Earlier groups are listed latest first. -/
def place (done : List ClusterGroup) (g : ClusterGroup) : List ClusterGroup × Bool :=
  let passed := done.takeWhile (·.loops ≠ g.loops)
  let rest := done.dropWhile (·.loops ≠ g.loops)
  if passed.isEmpty || rest.isEmpty || passed.any g.dependsOn then (g :: done, false)
  else (passed ++ g :: rest, true)

def step (state : List ClusterGroup × Nat) (g : ClusterGroup) : List ClusterGroup × Nat :=
  let (done, moved) := place state.1 g
  (done, if moved then state.2 + 1 else state.2)

def callback (groups : List ClusterGroup) (_ : List IterationInterval) :
    StateM Nat (List ClusterGroup) := do
  let (done, moved) := groups.foldl step ([], ← get)
  set moved
  return done.reverse

/-- Reorders clusters; the state counts the groups moved. -/
def apply (clusters : List Cluster) : StateM Nat (List Cluster) :=
  Queue.processGroups callback clusters

end Toposort
end LoopNest
