import LoopNest.Cluster

namespace LoopNest

/-- The distance of a dependence from an earlier cluster to a later one. -/
inductive Distance where
  /-- The components that are not zero in loop order, signed along the traversal. Each stands on the
  outermost shared loop of its family. -/
  | uniform (components : List (Dimension × Int64))
  /-- No constant distance is known. -/
  | unknown
deriving DecidableEq

namespace Distance

/-- Whether in shared loops the later cluster would touch an element before the earlier one. -/
def isReversed : Distance → Bool
  | uniform ((_, offset) :: _) => offset < 0
  | _ => false

def isUnknown : Distance → Bool
  | unknown => true
  | uniform _ => false

/-- The shared loop that carries the dependence. -/
def carrier? : Distance → Option Dimension
  | uniform ((d, offset) :: _) => if 0 < offset then some d else none
  | _ => none

def dimensions : Distance → List Dimension
  | uniform components => components.map Prod.fst
  | unknown => []

/-- The loops that no outer one shares a root with, given the dimensions further out. -/
def familyHeads (outer : List Dimension) : List IterationInterval → List IterationInterval
  | [] => []
  | l :: rest =>
    if outer.any (·.sharesRoot l.dim) then familyHeads outer rest
    else l :: familyHeads (l.dim :: outer) rest

def dimensionOf? (dims : List Dimension) (s : String) : Option Dimension :=
  dims.find? (·.name = s)

/-- The offset of a loop's family: the first that is not zero, signed along the traversal. -/
def offsetAlong (dims : List Dimension) (offsets : SortedMap String Int64)
    (l : IterationInterval) : Except Failure Int64 :=
  let family := offsets.entries.filter fun e =>
    (dimensionOf? dims e.1).any (·.sharesRoot l.dim)
  let offset := ((family.map Prod.snd).find? (· ≠ 0)).getD 0
  match l.direction with
  | .forward => .ok offset
  | .backward => orOverflow offset.neg?

/-- Projects offsets of index variables onto the shared loops. An offset along a symbol that no loop
iterates is fixed for the whole run, so the accesses never meet. -/
def project (loops : List IterationInterval) (dims : List Dimension)
    (offsets : SortedMap String Int64) : Except Failure (Option Distance) :=
  if offsets.entries.any fun e => e.2 ≠ 0 ∧ dimensionOf? dims e.1 = none then .ok none
  else do
    let components ← (familyHeads [] loops).mapM fun l => do
      return (l.dim, ← offsetAlong dims offsets l)
    return some (uniform (components.filter (·.2 ≠ 0)))

/-- The pairs of accesses, one of the earlier and one of the later equation, of which one writes. -/
def conflictingAccesses (a b : Equation) : List (Access × Access) :=
  (a.lhs, b.lhs) :: (b.rhs.accesses.map (a.lhs, ·) ++ a.rhs.accesses.map (·, b.lhs))

def ofAccesses (loops : List IterationInterval) (dims : List Dimension) (x y : Access) :
    Except Failure (Option Distance) :=
  match x.distance y with
  | .disjoint => .ok none
  | .unknown => .ok (some unknown)
  | .uniform offsets => project loops dims offsets

end Distance

/-- Every dependence from one cluster to a later one, measured along the shared loops. Two equations
depend on each other when they access the same array and one of them writes it. -/
def dependences (earlier later : Cluster) (loops : List IterationInterval) :
    Except Failure (List Distance) := do
  let dims := earlier.dimensions ++ later.dimensions
  let pairs := earlier.equations.flatMap fun a =>
    later.equations.flatMap fun b => Distance.conflictingAccesses a b
  let found ← pairs.mapM fun p => Distance.ofAccesses loops dims p.1 p.2
  return found.filterMap id

def Properties.narrowAlong (deps : List Distance) (p : Properties) (d : Dimension) : Properties :=
  if (deps.filterMap Distance.carrier?).any (·.sharesRoot d) then p.sequentialize d
  else if (deps.flatMap Distance.dimensions).any (·.sharesRoot d) then p.affect d
  else p

/-- Narrows the tags of the dimensions: a loop that carries a dependence turns sequential, one with
another component is no longer independent. -/
def Properties.narrow (p : Properties) (dims : List Dimension) (deps : List Distance) :
    Properties :=
  dims.foldl (Properties.narrowAlong deps) p

end LoopNest
