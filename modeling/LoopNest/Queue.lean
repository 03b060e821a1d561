import LoopNest.ClusterGroup

namespace LoopNest

/-- The maximal runs of neighbours with one key. -/
def runsBy {ε κ : Type} [DecidableEq κ] (key : ε → κ) : List ε → List (κ × List ε)
  | [] => []
  | e :: rest =>
    match runsBy key rest with
    | [] => [(key e, [e])]
    | (k, run) :: runs =>
      if key e = k then (k, e :: run) :: runs else (key e, [e]) :: (k, run) :: runs

namespace Queue

variable {ε : Type}

/-- The runs of neighbours that share their first `level` loops. Runs apart are never merged, since
the order of the elements carries dependences. -/
def groupRuns (loops : ε → List IterationInterval) (level : Nat) (elements : List ε) :
    List (List IterationInterval × List ε) :=
  runsBy (fun e => (loops e).take level) elements

def maxDepth (loops : ε → List IterationInterval) (elements : List ε) : Nat :=
  (elements.map fun e => (loops e).length).foldl max 0

/-- Divides, then applies, for at most the given number of levels. -/
def divideFirstWithin {m : Type → Type} [Monad m] (loops : ε → List IterationInterval)
    (callback : List ε → List IterationInterval → m (List ε)) :
    Nat → List ε → Nat → List IterationInterval → m (List ε)
  | 0, elements, _, outer => callback elements outer
  | levels + 1, elements, level, outer => do
    let processed ← (groupRuns loops level elements).mapM fun (key, run) =>
      if key.length < level then pure run
      else divideFirstWithin loops callback levels run (level + 1) key
    callback processed.flatten outer

/-- First divide, then apply: the callback sees the parts of a run, processed, before the run. The
number of levels is that of the longest nest, below which nothing is left to divide. -/
def divideFirst {m : Type → Type} [Monad m] (loops : ε → List IterationInterval)
    (callback : List ε → List IterationInterval → m (List ε)) (elements : List ε) (level : Nat)
    (outer : List IterationInterval) : m (List ε) :=
  divideFirstWithin loops callback (maxDepth loops elements + 1 - level) elements level outer

/-- First apply, then divide, for at most the given number of levels: the callback changes a run
before its parts are visited, so a run may grow deeper on the way. -/
def applyFirst {m : Type → Type} [Monad m] (loops : ε → List IterationInterval)
    (callback : List ε → List IterationInterval → m (List ε)) :
    Nat → List ε → Nat → m (List ε)
  | 0, elements, _ => pure elements
  | levels + 1, elements, level => do
    let processed ← (groupRuns loops level elements).mapM fun (key, run) =>
      if key.length < level then pure run
      else do applyFirst loops callback levels (← callback run key) (level + 1)
    return processed.flatten

def unhandled (depth : Nat) : Error :=
  .internal .callbackNotImplemented s!"queue callback not implemented (prefix depth {depth})"

def unhandledGroups (depth : Nat) : Error :=
  .internal .callbackNotImplemented
    s!"cluster-group callback not implemented (prefix depth {depth})"

/-- The groups that a callback returns for a run, as one group under the loops of the run. -/
def collapse (outer : List IterationInterval) : List ClusterGroup → List ClusterGroup
  | [] => []
  | groups => [⟨ClusterGroup.concat groups, outer⟩]

/-- Divides clusters first and hands them on in groups, one group per processed run. -/
def processGroups {m : Type → Type} [Monad m]
    (callback : List ClusterGroup → List IterationInterval → m (List ClusterGroup))
    (clusters : List Cluster) : m (List Cluster) :=
  ClusterGroup.concat <$> divideFirst ClusterGroup.loops
    (fun groups outer => collapse outer <$> callback groups outer)
    (clusters.map ClusterGroup.ofCluster) 1 []

end Queue
end LoopNest
