import LoopNest.Equation
import LoopNest.Properties

namespace LoopNest

/-- Equations in execution order over one iteration space, with the tags of its dimensions. -/
structure Cluster where
  equations : List Equation
  ispace : IterationSpace
  dspace : DataSpace
  properties : Properties
deriving DecidableEq, Inhabited

namespace Cluster

def ofEquation (e : Equation) (properties : Properties) : Cluster :=
  ⟨[e], e.ispace, e.dspace, properties⟩

def loops (c : Cluster) : List IterationInterval := c.ispace.loops

def dimensions (c : Cluster) : List Dimension := c.ispace.dimensions

def writes (c : Cluster) : SortedSet String := .ofList (c.equations.map Equation.write)

def reads (c : Cluster) : SortedSet String := .ofList (c.equations.flatMap (·.reads.toList))

def text (c : Cluster) : String :=
  "Cluster " ++ c.ispace.text ++ "\n" ++
    String.join (c.equations.map fun e => "  " ++ e.text ++ "\n")

/-- One cluster of all the equations in order: spaces are united and tags merged. -/
def ofClusters : List Cluster → Except Error Cluster
  | [] => .error (.internal .incompatibleSpaces "cannot build a Cluster out of zero Clusters")
  | cs@(first :: rest) => do
    let ispace ← IterationSpace.union (cs.map ispace)
    let dspace ← DataSpace.union (cs.map dspace)
    return ⟨cs.flatMap equations, ispace, dspace,
      rest.foldl (fun p c => p.merge c.properties) first.properties⟩

/-- Adds one equation to clusters listed latest first: to the latest if it has the same iteration
space, else as a cluster of its own with the tags of its dimensions. -/
def addEquation (properties : Properties) (clusters : List Cluster) (e : Equation) :
    Except Error (List Cluster) :=
  let fresh := ofEquation e (properties.retain (· ∈ e.ispace.dimensions))
  match clusters with
  | [] => .ok [fresh]
  | c :: earlier =>
    if c.ispace = e.ispace then do
      let dspace ← DataSpace.union [c.dspace, e.dspace]
      return { c with equations := c.equations ++ [e], dspace } :: earlier
    else .ok (fresh :: c :: earlier)

/-- Groups neighbouring equations of one iteration space into clusters. -/
def clusterize (equations : List Equation) (properties : Properties) :
    Except Error (List Cluster) :=
  List.reverse <$> equations.foldlM (addEquation properties) []

end Cluster
end LoopNest
