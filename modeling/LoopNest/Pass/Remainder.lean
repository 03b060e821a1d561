import LoopNest.Cluster

namespace LoopNest
namespace Remainder

inductive Slab where
  | left
  | middle
  | right
deriving DecidableEq

def Slab.tag : Slab → String
  | left => "lr"
  | middle => "mr"
  | right => "rr"

/-- The names given out so far, as dimension and slab, and the number of dimensions split. -/
structure State where
  issued : List (Dimension × Slab)
  splits : Nat
deriving DecidableEq, Inhabited

def State.empty : State := ⟨[], 0⟩

/-- A name for a slab that has not been given out before. -/
def freshName (d : Dimension) (slab : Slab) : StateT State (Except Failure) String := do
  let n := (← get).issued.count (d, slab)
  modify fun s => { s with issued := (d, slab) :: s.issued }
  return s!"{d.name}_{slab.tag}{n}"

abbrev SideSlabs := List (LinExpr × Dimension)

/-- The slab of the given thickness, which siblings share. -/
def sideSlab (d : Dimension) (slab : Slab) (region : LinExpr → Region) (known : SideSlabs)
    (thickness : LinExpr) : StateT State (Except Failure) (Dimension × SideSlabs) := do
  match known.find? (·.1 = thickness) with
  | some entry => return (entry.2, known)
  | none =>
    let dim := Dimension.sub (← freshName d slab) d (region thickness)
    return (dim, (thickness, dim) :: known)

/-- Moves an equation from a dimension, where it has the interval `current`, onto an interval over a
part of that dimension. -/
def retarget (e : Equation) (current : Interval) (old : Dimension) (new : Interval) :
    Except Failure Equation := do
  let (lower, upper) ← match current.bounds?, new.bounds? with
    | some (l, u), some (l', u') => do pure (← l'.sub l, ← u'.sub u)
    | _, _ => pure (LinExpr.zero, LinExpr.zero)
  let ispace ← e.ispace.expand old [new] []
  let dspace ← e.dspace.remap old new.dim lower upper
  return { ← e.substitute (.rename old.name new.dim.name) with ispace, dspace }

structure Middle where
  interval : Interval
  lower : LinExpr
  upper : LinExpr
  dim : Dimension

def splitLeft (d : Dimension) (middle : Middle) (known : SideSlabs) (e : Equation)
    (i : Interval) : StateT State (Except Failure) (List Equation × SideSlabs) := do
  match (← i.leftRemainder middle.interval).bounds? with
  | none => return ([], known)
  | some (lower, _) =>
    let (dim, known) ← sideSlab d .left .left known (← middle.lower.sub lower)
    return ([← retarget e i d (.closed dim lower lower)], known)

def splitRight (d : Dimension) (middle : Middle) (known : SideSlabs) (e : Equation)
    (i : Interval) : StateT State (Except Failure) (List Equation × SideSlabs) := do
  match (← i.rightRemainder middle.interval).bounds? with
  | none => return ([], known)
  | some (_, upper) =>
    let (dim, known) ← sideSlab d .right .right known (← upper.sub middle.upper)
    return ([← retarget e i d (.closed dim upper upper)], known)

/-- The parts of every sibling in order: left, middle, right. -/
def splitAll (d : Dimension) (middle : Middle) :
    SideSlabs → SideSlabs → List (Equation × Interval) →
      StateT State (Except Failure) (List Equation)
  | _, _, [] => return []
  | lefts, rights, (e, i) :: rest => do
    let (left, lefts) ← splitLeft d middle lefts e i
    let centre ← retarget e i d (.closed middle.dim .zero .zero)
    let (right, rights) ← splitRight d middle rights e i
    return left ++ centre :: right ++ (← splitAll d middle lefts rights rest)

def intervalOver (d : Dimension) (e : Equation) : Except Error Interval :=
  match e.ispace.intervals.find? d with
  | some i => .ok i
  | none => .error (.internal .missingInterval
      s!"equation `{e.text}` does not iterate over `{d.name}`")

def commonInterval? : List Interval → Except Error (Option Interval)
  | [] => .ok none
  | i :: rest => some <$> rest.foldlM Interval.intersection i

/-- Splits siblings along a dimension; siblings with nothing in common are left alone. The range
they have in common becomes one middle slab that all share, and what sticks out on either side a
left or right slab of its own:
```text
a over x[-2, 1]          a over x_lr0[-2, -2]
b over x[-1, 2]    ⟶     a over x_mr0[0, 0]
                         b over x_mr0[0, 0]
                         b over x_rr0[2, 2]
``` -/
def decompose (siblings : List Equation) (d : Dimension) :
    StateT State (Except Failure) (List Equation) := do
  let intervals ← siblings.mapM fun e => liftM (intervalOver d e)
  match ← commonInterval? intervals with
  | none => return []
  | some common =>
    match common.bounds? with
    | none => return siblings
    | some (lower, upper) =>
      let name ← freshName d .middle
      let dim := Dimension.sub name d (.middle lower (← upper.neg))
      let parts ← splitAll d ⟨common, lower, upper, dim⟩ [] [] (siblings.zip intervals)
      modify fun s => { s with splits := s.splits + 1 }
      return parts

/-- Whether all equations iterate over the dimension and two neighbours differ there. -/
def diverges (c : Cluster) (d : Dimension) : Bool :=
  match c.equations.mapM (·.ispace.intervals.find? d) with
  | none => false
  | some intervals => (intervals.zip intervals.tail).any fun p => p.1 ≠ p.2

/-- Slabs take the tags of the dimension they are cut from; only a middle one stays tilable. -/
def inheritTags (p : Properties) (d : Dimension) (parts : List Equation) : Properties :=
  let slabs := parts.flatMap fun e => e.ispace.dimensions.filter (·.parent? = some d)
  slabs.foldl (fun q slab =>
    q.tag slab ((p.of d).toList.filter fun t => slab.isMiddle ∨ t ≠ .tilable)) (p.drop d)

def splitCluster (c : Cluster) : StateT State (Except Failure) (List Cluster) := do
  if c.equations.length < 2 then return [c]
  match c.dimensions.find? (diverges c) with
  | none => return [c]
  | some d =>
    let parts ← decompose c.equations d
    if parts = c.equations then return [c]
    Cluster.clusterize parts (inheritTags c.properties d parts)

/-- Splits clusters; the state counts the dimensions split. -/
def apply (clusters : List Cluster) : StateT State (Except Failure) (List Cluster) :=
  List.flatten <$> clusters.mapM splitCluster

end Remainder
end LoopNest
