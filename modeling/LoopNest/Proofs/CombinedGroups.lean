import LoopNest.Proofs.IntervalLattice
import LoopNest.Proofs.StableOrder

namespace LoopNest

theorem eraseDups_append_of_subset {α : Type} [DecidableEq α] {l l' : List α} (h : l' ⊆ l) :
    (l ++ l').eraseDups = l.eraseDups := by
  rw [List.eraseDups_append, List.removeAll,
    List.filter_eq_nil_iff.mpr fun a ha => by simpa using h ha]
  exact List.append_nil _

theorem perm_eraseDups {α : Type} [DecidableEq α] {l l' : List α} (h : l.Perm l') :
    l.eraseDups.Perm l'.eraseDups := by
  refine (List.perm_ext_iff_of_nodup (nodup_eraseDups l) (nodup_eraseDups l')).mpr fun a => ?_
  rw [List.mem_eraseDups, List.mem_eraseDups, h.mem_iff]

namespace Interval

open LinExpr

variable {is : List Interval} {i j m acc : Interval}

/-- The best of the intervals that agree with all of the given ones in the way they are combined. A
single interval is kept, even with its bounds in the wrong order. -/
def Best : Combination → List Interval → Interval → Prop
  | .intersection, is, m => Meet is m ∧ (1 < is.length → m.Proper)
  | .union, is, m => Join is m

theorem Meet.snoc (h : Meet is acc) (h' : Meet [acc, j] m)
    (hc : ∀ a ∈ is.flatMap limits, ∀ b ∈ m.limits, a.Comparable b) : Meet (is ++ [j]) m := by
  have hin := h'.within
  rw [List.forall_mem_cons, List.forall_mem_singleton] at hin
  constructor
  · intro i hi
    rcases List.mem_append.mp hi with hi | hi
    · refine contains_trans (fun a ha => hc a ?_) (h.within i hi) hin.1
      exact List.mem_flatMap.mpr ⟨i, hi, ha⟩
    · rw [List.mem_singleton.mp hi]
      exact hin.2
  · intro k hk hall
    rw [List.forall_mem_append, List.forall_mem_singleton] at hall
    refine h'.greatest k hk ?_
    rw [List.forall_mem_cons, List.forall_mem_singleton]
    exact ⟨h.greatest k hk hall.1, hall.2⟩

theorem Join.snoc (h : Join is acc) (h' : Join [acc, j] m)
    (hc : ∀ a ∈ m.limits, ∀ b ∈ is.flatMap limits, a.Comparable b) : Join (is ++ [j]) m := by
  have hin := h'.contains
  rw [List.forall_mem_cons, List.forall_mem_singleton] at hin
  constructor
  · intro i hi
    rcases List.mem_append.mp hi with hi | hi
    · refine contains_trans (fun a ha b hb => hc a ha b ?_) hin.1 (h.contains i hi)
      exact List.mem_flatMap.mpr ⟨i, hi, hb⟩
    · rw [List.mem_singleton.mp hi]
      exact hin.2
  · intro k hall
    rw [List.forall_mem_append, List.forall_mem_singleton] at hall
    refine h'.least k ?_
    rw [List.forall_mem_cons, List.forall_mem_singleton]
    exact ⟨h.least k hall.1, hall.2⟩

theorem Best.single (how : Combination) (hc : ∀ a ∈ i.limits, ∀ b ∈ i.limits, a.Comparable b) :
    Best how [i] i := by
  have hself := contains_self hc
  cases how with
  | intersection =>
    exact ⟨⟨by simpa using hself, fun k _ hall => hall i List.mem_cons_self⟩, by simp⟩
  | union => exact ⟨by simpa using hself, fun k hall => hall i List.mem_cons_self⟩

/-- Two or more intervals have one best at most, in whatever order they come. -/
theorem Best.unique {how : Combination} {is' : List Interval} {m' : Interval} (h : Best how is m)
    (h' : Best how is' m') (hp : is.Perm is') (hlen : 1 < is.length) : m = m' := by
  cases how with
  | intersection =>
    obtain ⟨hm, hproper⟩ := h
    obtain ⟨hm', hproper'⟩ := h'
    refine eq_of_contains ?_ ?_
    · exact hm.greatest m' (hproper' (hp.length_eq ▸ hlen)) fun i hi =>
        hm'.within i (hp.mem_iff.mp hi)
    · exact hm'.greatest m (hproper hlen) fun i hi => hm.within i (hp.mem_iff.mpr hi)
  | union =>
    refine eq_of_contains ?_ ?_
    · exact h'.least m fun i hi => h.contains i (hp.mem_iff.mpr hi)
    · exact h.least m' fun i hi => h'.contains i (hp.mem_iff.mp hi)

/-- One more interval is combined with the best of those before. -/
theorem exists_combine (how : Combination) (hdim : acc.dim = j.dim) (hbest : Best how is acc)
    (hsub : acc.limits ⊆ is.flatMap limits)
    (hc : ∀ a ∈ (is ++ [j]).flatMap limits, ∀ b ∈ (is ++ [j]).flatMap limits, a.Comparable b) :
    ∃ m, how.combine acc j = .ok m ∧ Best how (is ++ [j]) m ∧
      m.limits ⊆ (is ++ [j]).flatMap limits := by
  rw [List.flatMap_append, List.flatMap_singleton] at hc ⊢
  have hboth : acc.limits ++ j.limits ⊆ is.flatMap limits ++ j.limits :=
    List.append_subset.mpr ⟨List.subset_append_of_subset_left _ hsub, List.subset_append_right _ _⟩
  have hc' := fun a ha b hb => hc a (hboth ha) b (hboth hb)
  cases how with
  | intersection =>
    obtain ⟨m, hm, hmeet, hproper, hlimits⟩ := exists_intersection hdim hc'
    refine ⟨m, hm, ⟨hbest.1.snoc hmeet fun a ha b hb => ?_, fun _ => hproper⟩,
      List.Subset.trans hlimits hboth⟩
    exact hc a (List.mem_append_left _ ha) b (hboth (hlimits hb))
  | union =>
    obtain ⟨m, hm, hjoin, hlimits⟩ := exists_union hdim hc'
    refine ⟨m, hm, Join.snoc hbest hjoin fun a ha b hb => ?_, List.Subset.trans hlimits hboth⟩
    exact hc a (hboth (hlimits ha)) b (List.mem_append_left _ hb)

/-- Intervals over one dimension whose bounds have an order are combined into their best. -/
theorem exists_best (how : Combination) {rest : List Interval}
    (hdim : ∀ j ∈ rest, j.dim = i.dim) (hm : Measured (i :: rest)) :
    ∃ m, rest.foldlM how.combine i = .ok m ∧ Best how (i :: rest) m := by
  have hrun : ∀ rest : List Interval, (∀ j ∈ rest, j.dim = i.dim) →
      (∀ a ∈ (i :: rest).flatMap limits, ∀ b ∈ (i :: rest).flatMap limits, a.Comparable b) →
      ∃ m, rest.foldlM how.combine i = .ok m ∧ m.dim = i.dim ∧ Best how (i :: rest) m ∧
        m.limits ⊆ (i :: rest).flatMap limits := by
    intro rest
    induction rest using List.reverseRecOn with
    | nil =>
      intro _ hc
      rw [List.flatMap_singleton] at hc
      exact ⟨i, rfl, rfl, Best.single how hc, by simp⟩
    | append_singleton rest j ih =>
      intro hdim hc
      rw [List.forall_mem_append, List.forall_mem_singleton] at hdim
      have hfront : (i :: rest).flatMap limits ⊆ (i :: (rest ++ [j])).flatMap limits := by
        rw [← List.cons_append, List.flatMap_append]
        exact List.subset_append_left _ _
      obtain ⟨acc, hacc, haccdim, hbest, hsub⟩ := ih hdim.1 fun a ha b hb =>
        hc a (hfront ha) b (hfront hb)
      obtain ⟨m, hm, hbest', hsub'⟩ :=
        exists_combine how (haccdim.trans hdim.2.symm) hbest hsub hc
      refine ⟨m, ?_, (IntervalGroup.combine_dim hm).trans haccdim, hbest', hsub'⟩
      rw [List.foldlM_append, hacc]
      change List.foldlM how.combine acc [j] = .ok m
      rw [List.foldlM_cons, hm]
      rfl
  obtain ⟨m, hfold, -, hbest, -⟩ := hrun rest hdim hm.comparable
  exact ⟨m, hfold, hbest⟩

theorem Measured.perm {is' : List Interval} (hp : is.Perm is') (h : Measured is) :
    Measured is' :=
  (hp.flatMap_right limits).pairwise h fun hab => ⟨hab.2, hab.1⟩

/-- The intervals over one dimension can be combined in any order. -/
theorem foldlM_combine_perm (how : Combination) {d : Dimension} {i' : Interval}
    {rest rest' : List Interval} (hp : (i :: rest).Perm (i' :: rest'))
    (hdim : ∀ j ∈ i :: rest, j.dim = d) (hm : Measured (i :: rest)) :
    rest'.foldlM how.combine i' = rest.foldlM how.combine i := by
  cases rest with
  | nil =>
    obtain ⟨rfl, rfl⟩ := List.cons.inj (List.singleton_perm.mp hp)
    rfl
  | cons j rest =>
    have hdim' : ∀ j ∈ i' :: rest', j.dim = d := fun j hj => hdim j (hp.mem_iff.mpr hj)
    rw [List.forall_mem_cons] at hdim hdim'
    obtain ⟨m, hfold, hbest⟩ := exists_best how
      (fun j hj => (hdim.2 j hj).trans hdim.1.symm) hm
    obtain ⟨m', hfold', hbest'⟩ := exists_best how
      (fun j hj => (hdim'.2 j hj).trans hdim'.1.symm) (hm.perm hp)
    rw [hfold, hfold', hbest.unique hbest' hp (by simp)]

end Interval

namespace IntervalGroup

variable {how : Combination} {groups groups' : List IntervalGroup} {d : Dimension}

/-- What is combined over a dimension does not depend on the order of the groups. -/
theorem combineOver_perm (how : Combination) (hp : groups.Perm groups')
    (hm : Interval.Measured (groups.filterMap (·.find? d))) :
    combineOver how groups' d = combineOver how groups d ∧
      ∃ found, combineOver how groups d = .ok found := by
  have hdim : ∀ i ∈ groups.filterMap (·.find? d), i.dim = d := fun i hi => dim_of_found hi
  have hfound := hp.filterMap (·.find? d)
  unfold combineOver
  generalize groups.filterMap (·.find? d) = is at hm hdim hfound
  generalize groups'.filterMap (·.find? d) = is' at hfound
  cases is with
  | nil =>
    rw [List.nil_perm.mp hfound]
    exact ⟨rfl, none, rfl⟩
  | cons i rest =>
    cases is' with
    | nil => cases List.perm_nil.mp hfound
    | cons i' rest' =>
      obtain ⟨m, hfold, -⟩ := Interval.exists_best how
        (fun j hj => (hdim j (by simp [hj])).trans (hdim i (by simp)).symm) hm
      dsimp only
      rw [Interval.foldlM_combine_perm how hfound hdim hm, hfold]
      exact ⟨rfl, some m, rfl⟩

theorem find?_perm {intervals intervals' : List Interval} (hp : intervals.Perm intervals')
    (hnd : (intervals.map Interval.dim).Nodup) (d : Dimension) :
    intervals'.find? (·.dim = d) = intervals.find? (·.dim = d) := by
  cases h : intervals.find? (·.dim = d) with
  | none =>
    rw [List.find?_eq_none] at h ⊢
    exact fun i hi => h i (hp.mem_iff.mpr hi)
  | some i =>
    exact find?_dim ((hp.map Interval.dim).nodup_iff.mp hnd)
      (hp.mem_iff.mp (List.mem_of_find?_eq_some h)) (dim_of_find? h)

/-- Only which chains there are counts for a group. -/
theorem build_congr {relations relations' : List (List Dimension)}
    (h : ∀ chain, chain ∈ relations ↔ chain ∈ relations') (intervals : List Interval) :
    build intervals relations = build intervals relations' := by
  have hset : SortedSet.ofList (relations.filter (1 < ·.length)) =
      SortedSet.ofList (relations'.filter (1 < ·.length)) := by
    refine SortedSet.ext_mem fun chain => ?_
    rw [SortedSet.mem_ofList, SortedSet.mem_ofList, List.mem_filter, List.mem_filter, h]
  unfold build
  rw [hset]

structure Same (g g' : IntervalGroup) : Prop where
  relations : g'.relations = g.relations
  find? : ∀ d, g'.find? d = g.find? d

/-- Intervals that are given in another order make a group with the same intervals and chains, or
none for the same reason. -/
theorem build_perm_cases {intervals intervals' : List Interval}
    (hp : intervals.Perm intervals') (hnd : (intervals.map Interval.dim).Nodup)
    (relations : List (List Dimension)) :
    (∃ g g', build intervals relations = .ok g ∧ build intervals' relations = .ok g' ∧ g.Same g') ∨
    ∃ e e', build intervals relations = .error e ∧ build intervals' relations = .error e' ∧
      e.Is .cyclicRelations ∧ e'.Is .cyclicRelations := by
  have hnd' := (hp.map Interval.dim).nodup_iff.mp hnd
  by_cases hc : Cyclic relations
  · obtain ⟨e, he, hkind⟩ := build_cyclic hnd hc
    obtain ⟨e', he', hkind'⟩ := build_cyclic hnd' hc
    exact .inr ⟨e, e', he, he', hkind, hkind'⟩
  · obtain ⟨g, hg⟩ := build_returns hnd hc
    obtain ⟨g', hg'⟩ := build_returns hnd' hc
    refine .inl ⟨g, g', hg, hg', ?_, fun d => ?_⟩
    · rw [(build_cases hg).2.1, (build_cases hg').2.1]
    · have hsame := (build_perm hg).trans (hp.trans (build_perm hg').symm)
      exact find?_perm hsame (build_dimensions_nodup hg) d

/-- Where combining never fails, a group is built from what it gives over each dimension. -/
theorem generate_eq {found : Dimension → Option Interval}
    (h : ∀ d, combineOver how groups d = .ok (found d)) :
    generate how groups = build ((groups.flatMap dimensions).eraseDups.filterMap found)
      (groups.flatMap (·.relations.toList)) := by
  have hfound : (groups.flatMap dimensions).eraseDups.mapM (combineOver how groups) =
      pure ((groups.flatMap dimensions).eraseDups.map found) := mapM_eq_pure fun d _ => h d
  unfold generate
  dsimp only
  rw [hfound, pure_bind, List.filterMap_map]
  rfl

/-- Where all groups list the same dimensions, these are the dimensions of their combination. -/
theorem eraseDups_dimensions {g : IntervalGroup} {dims : List Dimension}
    (h : ∀ g' ∈ g :: groups, g'.dimensions = dims) :
    ((g :: groups).flatMap dimensions).eraseDups = dims.eraseDups := by
  obtain ⟨hg, hrest⟩ := List.forall_mem_cons.mp h
  rw [List.flatMap_cons, hg, eraseDups_append_of_subset]
  intro d hd
  obtain ⟨g', hg', hd⟩ := List.mem_flatMap.mp hd
  exact hrest g' hg' ▸ hd

/-- Groups whose intervals have bounds with an order can be combined in any order: either the
results have the same chains and intervals, and are equal if all groups list the same dimensions, or
both times the chains form a cycle. -/
theorem generate_perm (how : Combination) (hp : groups.Perm groups')
    (hm : ∀ d, Interval.Measured (groups.filterMap (·.find? d))) :
    ((∃ g g', generate how groups = .ok g ∧ generate how groups' = .ok g' ∧ g.Same g') ∨
      ∃ e e', generate how groups = .error e ∧ generate how groups' = .error e' ∧
        e.Is .cyclicRelations ∧ e'.Is .cyclicRelations) ∧
    ∀ dims, (∀ g ∈ groups, g.dimensions = dims) → generate how groups' = generate how groups := by
  choose found hfound using fun d => (combineOver_perm how hp (hm d)).2
  have hfound' : ∀ d, combineOver how groups' d = .ok (found d) := fun d =>
    (combineOver_perm how hp (hm d)).1.trans (hfound d)
  have hchains := hp.flatMap_right fun g => g.relations.toList
  rw [generate_eq hfound, generate_eq hfound', build_congr fun chain => hchains.symm.mem_iff]
  constructor
  · have hdims := perm_eraseDups (hp.flatMap_right dimensions)
    have hover : List.Forall₂ (fun d o => combineOver how groups d = .ok o)
        (groups.flatMap dimensions).eraseDups ((groups.flatMap dimensions).eraseDups.map found) :=
      List.forall₂_map_right_iff.mpr (List.forall₂_same.mpr fun d _ => hfound d)
    have hsub := combined_dimensions hover
    rw [List.filterMap_map] at hsub
    exact build_perm_cases (hdims.filterMap found) ((nodup_eraseDups _).sublist hsub) _
  · intro dims hsame
    have hsame' : ∀ g ∈ groups', g.dimensions = dims := fun g hg => hsame g (hp.mem_iff.mpr hg)
    cases groups with
    | nil => rw [List.nil_perm.mp hp]
    | cons g rest =>
      cases groups' with
      | nil => cases List.perm_nil.mp hp
      | cons g' rest' => rw [eraseDups_dimensions hsame, eraseDups_dimensions hsame']

/-- Over the dimensions that no group lists there is nothing to compare. -/
theorem measured_of_listed
    (h : ∀ d ∈ groups.flatMap dimensions, Interval.Measured (groups.filterMap (·.find? d))) :
    ∀ d, Interval.Measured (groups.filterMap (·.find? d)) := by
  intro d
  by_cases hd : d ∈ groups.flatMap dimensions
  · exact h d hd
  · have hnone : groups.filterMap (·.find? d) = [] := by
      refine List.filterMap_eq_nil_iff.mpr fun g hg => List.find?_eq_none.mpr fun i hi hdim => hd ?_
      exact List.mem_flatMap.mpr ⟨g, hg, List.mem_map.mpr ⟨i, hi, by simpa using hdim⟩⟩
    rw [hnone]
    exact List.Pairwise.nil

def overNames (names : List String) (lower upper : Int64) : IntervalGroup :=
  .ofIntervals (names.map fun name => .closed (.basic name) (.int lower) (.int upper))

/-- Two groups that share one dimension have the same intersection both ways around, but for the
order of its dimensions. -/
theorem generate_perm_overlapping :
    ∃ g g', generate .intersection [overNames ["t", "x"] (-2) 3, overNames ["x", "y"] (-1) 4] =
        .ok g ∧
      generate .intersection [overNames ["x", "y"] (-1) 4, overNames ["t", "x"] (-2) 3] = .ok g' ∧
      g.Same g' ∧ g ≠ g' := by
  obtain ⟨g, hg, hdims⟩ := exists_of_toOption
    (x := generate .intersection [overNames ["t", "x"] (-2) 3, overNames ["x", "y"] (-1) 4])
    (f := dimensions) (b := [.basic "t", .basic "x", .basic "y"]) (by decide +kernel)
  obtain ⟨g', hg', hdims'⟩ := exists_of_toOption
    (x := generate .intersection [overNames ["x", "y"] (-1) 4, overNames ["t", "x"] (-2) 3])
    (f := dimensions) (b := [.basic "x", .basic "y", .basic "t"]) (by decide +kernel)
  refine ⟨g, g', hg, hg', ?_, ?_⟩
  · have hp := List.Perm.swap (overNames ["x", "y"] (-1) 4) (overNames ["t", "x"] (-2) 3) []
    obtain ⟨⟨g₁, g₁', hg₁, hg₁', hsame⟩ | ⟨e, e', he, -⟩, -⟩ :=
      generate_perm .intersection hp (measured_of_listed (by decide +kernel))
    · rw [hg, Except.ok.injEq] at hg₁
      rw [hg', Except.ok.injEq] at hg₁'
      rw [hg₁, hg₁']
      exact hsame
    · rw [hg] at he
      cases he
  · rintro rfl
    exact absurd (hdims.symm.trans hdims') (by decide)

end IntervalGroup
end LoopNest
