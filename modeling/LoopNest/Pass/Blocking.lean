import LoopNest.Queue

namespace LoopNest

/-- How deep to block, and whether the innermost dimension of a cluster may be blocked too. -/
structure Blocking where
  levels : Nat
  inner : Bool
deriving DecidableEq

namespace Blocking

/-- The dimensions blocked so far, one entry per time, and the block dimensions created. -/
structure State where
  blocked : List Dimension
  created : List Dimension
deriving DecidableEq, Inhabited

def State.empty : State := ⟨[], []⟩

def wants (b : Blocking) (c : Cluster) (d : Dimension) : Bool :=
  c.properties.isTilable d && (b.inner || c.dimensions.getLast? ≠ some d)

/-- Blocks nested in one another, each in one step of the one before. -/
def nested (name : Nat → String) : Nat → Nat → Dimension → Except Failure (List Dimension)
  | 0, _, _ => .ok []
  | n + 1, level, outer => do
    let block ← Dimension.blockWithin (name level) outer none
    return block :: (← nested name n (level + 1) block)

/-- The block dimensions over `d`, coarsest first, when it is blocked for the `n`-th time. -/
def blocksOver (b : Blocking) (d : Dimension) (n : Nat) : Except Failure (List Dimension) := do
  let name := fun level : Nat => s!"{d.name}{n}_blk{level}"
  let first ← Dimension.blockOver (name 0) d
  return first :: (← nested name (b.levels - 1) 1 first)

/-- The dimension of step one inside the blocks, which keeps the name. -/
def pointsWithin (d : Dimension) (blocks : List Dimension) : Except Failure Dimension :=
  Dimension.blockWithin d.name (blocks.getLast?.getD d) (some (.int 1))

/-- The chains that keep blocks of the same level adjacent: a new dimension comes before every block
that is nested deeper and of another family. -/
def levelChains (new : List Dimension) (present : List Dimension) : List (List Dimension) :=
  (present.filter Dimension.isBlock).flatMap fun other =>
    let apart := new.takeWhile fun d => d.lineage.all (· ∉ other.lineage)
    (apart.filter fun d => d.lineage.length < other.lineage.length).map ([·, other])

/-- The interval of the blocked dimension moves to the coarsest block; the others run in full. -/
def blockIntervals (i : Interval) : List Dimension → List Interval
  | [] => []
  | outermost :: rest => i.switch outermost :: rest.map fun d => (i.switch d).zero

/-- The new dimensions take the tags of the blocked one, except that they are not tilable. -/
def inheritTags (p : Properties) (d : Dimension) (new : List Dimension) : Properties :=
  let inherited := (p.of d).toList.filter (· ≠ .tilable)
  new.foldl (fun p d => p.tag d inherited) (p.drop d)

/-- A dimension gives way to a hierarchy of block dimensions and an innermost one of step one that
keeps its name, so that the equations stay as they are. -/
def block (b : Blocking) (c : Cluster) (d : Dimension) :
    StateT State (Except Failure) Cluster := do
  let blocks ← b.blocksOver d ((← get).blocked.count d)
  let new := blocks ++ [← pointsWithin d blocks]
  let i ← match c.ispace.intervals.find? d with
    | some i => pure i
    | none => throw (.error (.internal .missingInterval
        s!"cannot block `{d.name}`: not in {c.ispace.text}"))
  let ispace ← c.ispace.expand d (blockIntervals i new)
    (new :: levelChains new c.dimensions)
  modify fun s => ⟨d :: s.blocked, s.created ++ blocks⟩
  return { c with ispace, properties := inheritTags c.properties d new }

/-- Blocks the innermost of the shared loops in the clusters that want it. -/
def callback (b : Blocking) (clusters : List Cluster) (outer : List IterationInterval) :
    StateT State (Except Failure) (List Cluster) :=
  match outer.getLast? with
  | none => return clusters
  | some l => clusters.mapM fun c => if b.wants c l.dim then b.block c l.dim else return c

def tilableCount (c : Cluster) : Nat :=
  (c.properties.tags.values.filter (·.contains .tilable)).length

/-- A bound on the depth of the nests on the way: blocking a dimension adds `levels` loops and
consumes one tilable tag. -/
def depthBound (b : Blocking) (clusters : List Cluster) : Nat :=
  1 + (clusters.map fun c => c.dimensions.length + b.levels * tilableCount c).foldl max 0

/-- Blocks clusters; the state records what has been blocked. -/
def apply (b : Blocking) (clusters : List Cluster) :
    StateT State (Except Failure) (List Cluster) :=
  if b.levels = 0 then return clusters
  else Queue.applyFirst Cluster.loops b.callback (b.depthBound clusters) clusters 1

end Blocking
end LoopNest
