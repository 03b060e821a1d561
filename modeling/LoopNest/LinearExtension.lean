
namespace LoopNest

variable {α : Type} [DecidableEq α]

def takeSource : List (α × List α) → Option (α × List (α × List α))
  | [] => none
  | (a, []) :: rest => some (a, rest)
  | e :: rest => (takeSource rest).map fun r => (r.1, e :: r.2)

/-- Takes sources out, at most the given number of them; `none` if entries are left without one. -/
def takeSources : Nat → List (α × List α) → Option (List α)
  | 0, _ => some []
  | n + 1, pending => do
    let (a, rest) ← takeSource pending
    return a :: (← takeSources n (rest.map fun e => (e.1, e.2.filter (· ≠ a))))

def predecessors (pairs : List (α × α)) (a : α) : List α :=
  (pairs.filter (·.2 = a)).map Prod.fst

/-- As long as elements remain, the first one without a remaining predecessor comes next, so
elements that no pair separates keep their order. There is none if the pairs form a cycle. -/
def linearExtension? (elements : List α) (pairs : List (α × α)) : Option (List α) :=
  takeSources elements.length (elements.map fun a => (a, predecessors pairs a))

end LoopNest
