
namespace LoopNest

/-- A finite set, kept as the strictly ascending list of its members. -/
structure SortedSet (α : Type) [Ord α] where
  toList : List α
  sorted : toList.Pairwise fun a b => compare a b = .lt
deriving DecidableEq

namespace SortedSet

variable {α : Type} [Ord α]

def empty : SortedSet α := ⟨[], .nil⟩

instance : Inhabited (SortedSet α) := ⟨empty⟩

def isEmpty (s : SortedSet α) : Bool := s.toList.isEmpty

def contains (s : SortedSet α) (a : α) : Bool := s.toList.any fun b => compare a b == .eq

def insertMember (a : α) : List α → List α
  | [] => [a]
  | b :: rest =>
    match compare a b with
    | .lt => a :: b :: rest
    | .eq => a :: rest
    | .gt => b :: insertMember a rest

theorem mem_insertMember {a x : α} {l : List α} (h : x ∈ insertMember a l) : x = a ∨ x ∈ l := by
  induction l with
  | nil => simpa [insertMember] using h
  | cons b l ih =>
    rw [insertMember] at h
    split at h
    · simpa using h
    · rcases List.mem_cons.mp h with h | h
      · exact .inl h
      · exact .inr (List.mem_cons_of_mem _ h)
    · rcases List.mem_cons.mp h with h | h
      · exact .inr (h ▸ List.mem_cons_self)
      · exact (ih h).imp id (List.mem_cons_of_mem _)

theorem insertMember_sorted [Std.TransOrd α] (a : α) {l : List α}
    (h : l.Pairwise fun a b => compare a b = .lt) :
    (insertMember a l).Pairwise fun a b => compare a b = .lt := by
  induction l with
  | nil => simp [insertMember]
  | cons b l ih =>
    obtain ⟨hb, hl⟩ := List.pairwise_cons.mp h
    rw [insertMember]
    split
    · rename_i hk
      refine List.pairwise_cons.mpr ⟨fun x hx => ?_, h⟩
      rcases List.mem_cons.mp hx with rfl | hx
      · exact hk
      · exact Std.TransCmp.lt_trans hk (hb x hx)
    · rename_i hk
      exact List.pairwise_cons.mpr ⟨fun x hx => Std.TransCmp.lt_of_eq_of_lt hk (hb x hx), hl⟩
    · rename_i hk
      refine List.pairwise_cons.mpr ⟨fun x hx => ?_, ih hl⟩
      rcases mem_insertMember hx with rfl | hx
      · exact Std.OrientedCmp.lt_of_gt hk
      · exact hb x hx

def insert [Std.TransOrd α] (s : SortedSet α) (a : α) : SortedSet α :=
  ⟨insertMember a s.toList, insertMember_sorted a s.sorted⟩

def filter (s : SortedSet α) (keep : α → Bool) : SortedSet α :=
  ⟨s.toList.filter keep, s.sorted.filter _⟩

def erase (s : SortedSet α) (a : α) : SortedSet α := s.filter fun b => compare a b != .eq

def insertMany [Std.TransOrd α] (s : SortedSet α) (l : List α) : SortedSet α :=
  l.foldl insert s

def ofList [Std.TransOrd α] (l : List α) : SortedSet α := empty.insertMany l

def inter (s t : SortedSet α) : SortedSet α := s.filter t.contains

def disjoint (s t : SortedSet α) : Bool := s.toList.all fun a => !t.contains a

end SortedSet
end LoopNest
