import LoopNest.Proofs.EquationOrder
import LoopNest.Proofs.Instances

namespace LoopNest

section
variable {α : Type} {lists : List (List α)} {l : List α} {a : α} {n n' m : Nat}

theorem split_getElem? (h : l[n]? = some a) : l = l.take n ++ a :: l.drop (n + 1) := by
  obtain ⟨hn, rfl⟩ := List.getElem?_eq_some_iff.mp h
  rw [← List.drop_eq_getElem_cons hn, List.take_append_drop]

/-- An element of one of the lists, in the list of all elements. -/
theorem flatten_split (hl : lists[n]? = some l) (ha : l[m]? = some a) :
    ∃ after, lists.flatten = ((lists.take n).flatten ++ l.take m) ++ a :: after := by
  refine ⟨l.drop (m + 1) ++ (lists.drop (n + 1)).flatten, ?_⟩
  conv_lhs => rw [split_getElem? hl, List.flatten_append, List.flatten_cons, split_getElem? ha]
  simp only [List.append_assoc, List.cons_append]

/-- Every element of the list of all elements is in one of the lists. -/
theorem exists_of_flatten_split {before after : List α}
    (h : lists.flatten = before ++ a :: after) :
    ∃ n l m, lists[n]? = some l ∧ l[m]? = some a ∧ before = (lists.take n).flatten ++ l.take m := by
  induction lists generalizing before with
  | nil => simp at h
  | cons first rest ih =>
    rw [List.flatten_cons, List.append_eq_append_iff] at h
    rcases h with ⟨skipped, rfl, h⟩ | ⟨inside, rfl, h⟩
    · obtain ⟨n, l, m, hn, hm, rfl⟩ := ih h
      exact ⟨n + 1, l, m, hn, hm, by simp⟩
    · cases inside with
      | nil =>
        obtain ⟨n, l, m, hn, hm, he⟩ := @ih [] h.symm
        exact ⟨n + 1, l, m, hn, hm, by simp [← he]⟩
      | cons b inside =>
        obtain ⟨rfl, -⟩ := List.cons.inj h
        exact ⟨0, before ++ a :: inside, before.length, rfl, by simp, by simp⟩

/-- What is in an earlier list comes before all that is in a later one. -/
theorem flatten_take_length_lt (hl : lists[n]? = some l) (ha : l[m]? = some a) (hn : n < n') :
    (lists.take n).flatten.length + m < (lists.take n').flatten.length := by
  have hm : m < l.length := (List.getElem?_eq_some_iff.mp ha).1
  have hnext : (lists.take (n + 1)).flatten.length = (lists.take n).flatten.length + l.length := by
    rw [List.take_add_one, hl, List.flatten_append, List.length_append]
    simp
  have hsplit := List.take_append_drop (n + 1) (lists.take n')
  rw [List.take_take, Nat.min_eq_left (show n + 1 ≤ n' from hn)] at hsplit
  rw [← hsplit, List.flatten_append, List.length_append]
  omega

end

/-- An equation of one of the clusters, by the numbers of both. -/
structure Place (cs : List Cluster) where
  cluster : Nat
  index : Nat
  nest : Cluster
  equation : Equation
  nest_eq : cs[cluster]? = some nest
  equation_eq : nest.equations[index]? = some equation

namespace Place

variable {cs : List Cluster} {P Q : Place cs}

theorem nest_mem (P : Place cs) : P.nest ∈ cs := List.mem_of_getElem? P.nest_eq

theorem equation_mem (P : Place cs) : P.equation ∈ P.nest.equations :=
  List.mem_of_getElem? P.equation_eq

def before (P : Place cs) : List Equation :=
  equationsOf (cs.take P.cluster) ++ P.nest.equations.take P.index

theorem equations_eq (P : Place cs) : (cs.map Cluster.equations)[P.cluster]? =
    some P.nest.equations := by
  rw [List.getElem?_map, P.nest_eq, Option.map_some]

theorem before_eq (P : Place cs) : P.before =
    ((cs.map Cluster.equations).take P.cluster).flatten ++ P.nest.equations.take P.index := by
  rw [before, equationsOf, List.flatMap_def, List.map_take]

theorem before_length (P : Place cs) : P.before.length =
    ((cs.map Cluster.equations).take P.cluster).flatten.length + P.index := by
  have hlt : P.index < P.nest.equations.length := (List.getElem?_eq_some_iff.mp P.equation_eq).1
  rw [before_eq, List.length_append, List.length_take, Nat.min_eq_left hlt.le]

theorem equationsOf_split (P : Place cs) :
    ∃ after, equationsOf cs = P.before ++ P.equation :: after := by
  rw [equationsOf, List.flatMap_def, before_eq]
  exact flatten_split P.equations_eq P.equation_eq

/-- Every equation of the clusters has a place. -/
theorem exists_of_split {before after : List Equation} {e : Equation}
    (h : equationsOf cs = before ++ e :: after) :
    ∃ P : Place cs, P.before = before ∧ P.equation = e := by
  rw [equationsOf, List.flatMap_def] at h
  obtain ⟨n, es, m, hn, hm, rfl⟩ := exists_of_flatten_split h
  rw [List.getElem?_map, Option.map_eq_some_iff] at hn
  obtain ⟨c, hc, rfl⟩ := hn
  exact ⟨⟨n, m, c, e, hc, hm⟩, before_eq _, rfl⟩

theorem before_lt_of_cluster_lt (h : P.cluster < Q.cluster) :
    P.before.length < Q.before.length := by
  rw [before_length P, before_length Q]
  have hlt := flatten_take_length_lt P.equations_eq P.equation_eq h
  omega

theorem nest_congr (h : P.cluster = Q.cluster) : P.nest = Q.nest :=
  Option.some.inj (P.nest_eq.symm.trans (h ▸ Q.nest_eq))

/-- Within a cluster places stand in the order of their numbers. -/
theorem before_lt_iff_of_cluster_eq (h : P.cluster = Q.cluster) :
    P.before.length < Q.before.length ↔ P.index < Q.index := by
  rw [before_length P, before_length Q, h]
  omega

/-- No two places have equally many equations before them. -/
theorem eq_of_before_length (h : P.before.length = Q.before.length) : P = Q := by
  have hcluster : P.cluster = Q.cluster := by
    rcases lt_trichotomy P.cluster Q.cluster with hlt | heq | hgt
    · exact absurd h (before_lt_of_cluster_lt hlt).ne
    · exact heq
    · exact absurd h (before_lt_of_cluster_lt hgt).ne'
  have hindex : P.index = Q.index := by
    rw [before_length P, before_length Q, hcluster] at h
    omega
  have hnest := nest_congr hcluster
  have hequation : P.equation = Q.equation :=
    Option.some.inj (P.equation_eq.symm.trans (hnest ▸ hindex ▸ Q.equation_eq))
  cases P
  cases Q
  cases hcluster
  cases hindex
  cases hnest
  cases hequation
  rfl

/-- The equation at the first place runs at the point `p` before the one at the second does at
`q`. -/
def RunsBefore (P Q : Place cs) (p q : Valuation) : Prop :=
  P.cluster < Q.cluster ∨ P.cluster = Q.cluster ∧
    (Later P.nest.loops q p ∨ Agree P.nest.dimensions p q ∧ P.index < Q.index)

theorem single {c : Cluster} (S : Place [c]) : S.cluster = 0 ∧ S.nest = c := by
  have h := S.nest_eq
  rw [List.getElem?_singleton] at h
  split at h
  · exact ⟨by assumption, (Option.some.inj h).symm⟩
  · cases h

theorem single_equation {c : Cluster} (S : Place [c]) :
    c.equations[S.index]? = some S.equation := by
  have h := S.equation_eq
  rwa [S.single.2] at h

/-- In one cluster the points decide, and at one point the equations. -/
theorem runsBefore_single {c : Cluster} {S T : Place [c]} {p q : Valuation} :
    S.RunsBefore T p q ↔ Later c.loops q p ∨ Agree c.dimensions p q ∧ S.index < T.index := by
  rw [RunsBefore, S.single.1, S.single.2, T.single.1]
  simp

end Place

/-- A point of an equation's own nest: the parameters have their values and every index lies in the
range of its loop. -/
structure Equation.Point (e : Equation) (v p : Valuation) : Prop where
  params : ∀ s, (∀ d ∈ e.ispace.dimensions, d.name ≠ s) → p s = v s
  inRange : ∀ i ∈ e.ispace.intervals.intervals, i.InRange p

/-- Instances of two equations of a cluster that touch one element, at least one of them as the
write, and the first of which runs before the second. -/
structure Cluster.Clash (c : Cluster) (v : Valuation) (S T : Place [c]) (p q : Valuation) :
    Prop where
  left : S.equation.Point v p
  right : T.equation.Point v q
  touch : ∃ x ∈ S.equation.touches, ∃ y ∈ T.equation.touches,
    (x.2 = true ∨ y.2 = true) ∧ x.1.element p = y.1.element q
  first : S.RunsBefore T p q

theorem later_congr {loops loops' : List IterationInterval} {p q p' q' : Valuation}
    (h : List.Forall₂ (fun l l' => l.along p = l'.along p' ∧ l.along q = l'.along q')
      loops loops') :
    Later loops p q ↔ Later loops' p' q' := by
  induction h with
  | nil => exact Iff.rfl
  | cons hl _ ih => rw [Later, Later, hl.1, hl.2, ih]

theorem agree_congr {loops loops' : List IterationInterval} {p q p' q' : Valuation}
    (h : List.Forall₂ (fun l l' => l.along p = l'.along p' ∧ l.along q = l'.along q')
      loops loops') :
    Agree (loops.map (·.dim)) p q ↔ Agree (loops'.map (·.dim)) p' q' := by
  induction h with
  | nil => simp [Agree]
  | cons hl _ ih =>
    simp only [Agree, List.map_cons, List.forall_mem_cons]
    rw [← IterationInterval.along_eq_iff, ← IterationInterval.along_eq_iff, hl.1, hl.2]
    exact and_congr Iff.rfl ih

end LoopNest
