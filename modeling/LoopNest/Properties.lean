import LoopNest.Dimension.Order
import LoopNest.SortedMap
import LoopNest.SortedSet

namespace LoopNest

inductive Property where
  | parallel
  | parallelIndep
  | sequential
  | tilable
deriving DecidableEq

namespace Property

def rank : Property → Nat
  | parallel => 0
  | parallelIndep => 1
  | sequential => 2
  | tilable => 3

instance : Ord Property := ⟨compareOn rank⟩

instance : Std.TransOrd Property := inferInstanceAs (Std.TransCmp (compareOn rank))

instance : Std.LawfulEqOrd Property where
  eq_of_compare {a b} h := by
    have h : compare a.rank b.rank = .eq := h
    have h : a.rank = b.rank := Std.LawfulEqCmp.eq_of_compare h
    cases a <;> cases b <;> simp_all [rank]

def isParallel (p : Property) : Bool := p = parallel ∨ p = parallelIndep

def name : Property → String
  | parallel => "PARALLEL"
  | parallelIndep => "PARALLEL_INDEP"
  | sequential => "SEQUENTIAL"
  | tilable => "TILABLE"

end Property

structure Properties where
  tags : SortedMap Dimension (SortedSet Property)
deriving DecidableEq

namespace Properties

def empty : Properties := ⟨.empty⟩

instance : Inhabited Properties := ⟨empty⟩

def isEmpty (p : Properties) : Bool := p.tags.isEmpty

def find? (p : Properties) (d : Dimension) : Option (SortedSet Property) := p.tags.find? d

/-- The tags of a dimension, none if it is unknown. -/
def of (p : Properties) (d : Dimension) : SortedSet Property := (p.find? d).getD .empty

def has (p : Properties) (d : Dimension) (tag : Property) : Bool := (p.of d).contains tag

def isParallel (p : Properties) (d : Dimension) : Bool := (p.of d).toList.any Property.isParallel

def isParallelIndep (p : Properties) (d : Dimension) : Bool := p.has d .parallelIndep

def isSequential (p : Properties) (d : Dimension) : Bool := p.has d .sequential

def isTilable (p : Properties) (d : Dimension) : Bool := p.has d .tilable

/-- Adds tags to a dimension, which is known from then on even if there are none. -/
def tag (p : Properties) (d : Dimension) (tags : List Property) : Properties :=
  ⟨p.tags.insert d ((p.of d).insertMany tags)⟩

def drop (p : Properties) (d : Dimension) : Properties := ⟨p.tags.erase d⟩

def remove (p : Properties) (d : Dimension) (tag : Property) : Properties :=
  match p.find? d with
  | some tags => ⟨p.tags.insert d (tags.erase tag)⟩
  | none => p

def sequentialize (p : Properties) (d : Dimension) : Properties :=
  ((p.remove d .parallel).remove d .parallelIndep).tag d [.sequential]

/-- The tags once a dependence has a component along the dimension that another loop carries. -/
def affect (p : Properties) (d : Dimension) : Properties :=
  if p.isParallelIndep d then (p.remove d .parallelIndep).tag d [.parallel] else p

def retain (p : Properties) (keep : Dimension → Bool) : Properties := ⟨p.tags.filterKeys keep⟩

/-- The tags of a dimension that both sides know: those they agree on, and sequential if either
side is, which rules out parallel. -/
def mergeTags (ours theirs : SortedSet Property) : SortedSet Property :=
  let common := ours.inter theirs
  if ours.contains .sequential || theirs.contains .sequential then
    (common.filter (!·.isParallel)).insert .sequential
  else common

/-- Combines the tags of two clusters that come to share a nest. -/
def merge (p q : Properties) : Properties :=
  ⟨q.tags.entries.foldl (fun m e =>
    m.insert e.1 (match p.find? e.1 with
      | some ours => mergeTags ours e.2
      | none => e.2)) p.tags⟩

def entryText (d : Dimension) (tags : SortedSet Property) : String :=
  d.name ++ ": \x7b" ++ ", ".intercalate (tags.toList.map Property.name) ++ "\x7d"

def entryTexts (p : Properties) : List String := p.tags.entries.map fun e => entryText e.1 e.2

def text (p : Properties) : String := "\x7b" ++ ", ".intercalate p.entryTexts ++ "\x7d"

end Properties
end LoopNest
