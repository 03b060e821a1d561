import LoopNest.Config
import LoopNest.Pass.Blocking
import LoopNest.Pass.Fusion
import LoopNest.Pass.Interchange
import LoopNest.Pass.Remainder
import LoopNest.Pass.Toposort

namespace LoopNest

structure Outcome where
  clusters : List Cluster
  appliedPasses : List String
  modified : Bool
  blockDimensions : List Dimension
  runtimeArgs : SortedMap String Int64
deriving DecidableEq

namespace Pipeline

/-- Runs one pass by its name. The result comes with the block dimensions it created. -/
def runPass (c : Config) (pass : String) (clusters : List Cluster) :
    Except Failure (List Cluster × List Dimension) := do
  match pass with
  | "toposort" => return (((Toposort.apply clusters).run 0).1, [])
  | "fuse" => return ((← (Fusion.apply clusters).run 0).1, [])
  | "topofuse" => return ((← (Fusion.apply ((Toposort.apply clusters).run 0).1).run 0).1, [])
  | "blocking" =>
    let (out, state) ← (Blocking.apply ⟨c.blockLevels, c.blockInner⟩ clusters).run .empty
    return (out, state.created)
  | "interchange" => return ((← (Interchange.apply clusters).run .empty).1, [])
  | "remainder" => return ((← (Remainder.apply clusters).run .empty).1, [])
  | other => throw (.error (.config .unknownPass s!"unknown pass `{other}`"))

/-- Adds one pass to what has been done; its failures are reported under its name. -/
def addPass (c : Config) (done : Outcome) (pass : String) : Except Failure Outcome := do
  let (clusters, created) ← (runPass c pass done.clusters).mapError (·.inPass pass)
  return { done with
    clusters
    appliedPasses := done.appliedPasses ++ [pass]
    modified := done.modified || clusters ≠ done.clusters
    blockDimensions := done.blockDimensions ++ created }

/-- The size parameters of the blocks, each with the place of its root among the roots in the order
they were first blocked. -/
def sizeParameters (blocks : List Dimension) : List (String × Nat) :=
  let roots := (blocks.map Dimension.root).eraseDups
  blocks.filterMap fun d => d.sizeParameter?.map (·, roots.idxOf d.root)

def runtimeArgs (shape : List Int64) (blocks : List Dimension) : SortedMap String Int64 :=
  .ofList ((sizeParameters blocks).filterMap fun p => shape[p.2]?.map (p.1, ·))

def unsized (shape : List Int64) (blocks : List Dimension) : List String :=
  ((sizeParameters blocks).filter fun p => shape.length ≤ p.2).map Prod.fst

/-- Checks the configuration, then runs every selected pass. -/
def run (c : Config) (clusters : List Cluster) : Except Failure Outcome := do
  c.validate
  let done ← c.mode.passes.foldlM (addPass c) ⟨clusters, [], false, [], .empty⟩
  match c.blockShape with
  | some shape => return { done with runtimeArgs := runtimeArgs shape done.blockDimensions }
  | none => return done

end Pipeline
end LoopNest
