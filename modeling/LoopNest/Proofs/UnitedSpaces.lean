import LoopNest.Proofs.FusedNests

namespace LoopNest

namespace Interval

variable {i j m : Interval}

/-- The first reaches at least as far as the second on both sides, under every valuation. -/
def Widens : Interval → Interval → Prop
  | _, null _ => True
  | null _, closed _ _ _ => False
  | closed _ l u, closed _ l' u' =>
    ∀ v : String → Int, l.denote v ≤ l'.denote v ∧ u'.denote v ≤ u.denote v

theorem Widens.refl (i : Interval) : i.Widens i := by
  cases i with
  | null => trivial
  | closed => exact fun _ => ⟨le_rfl, le_rfl⟩

theorem Widens.trans (h : m.Widens i) (h' : i.Widens j) : m.Widens j := by
  cases j with
  | null => cases m <;> trivial
  | closed =>
    cases i with
    | null => exact h'.elim
    | closed =>
      cases m with
      | null => exact h.elim
      | closed => exact fun v => ⟨(h v).1.trans (h' v).1, (h' v).2.trans (h v).2⟩

theorem union_widens (h : i.union j = .ok m) : m.Widens i ∧ m.Widens j := by
  obtain ⟨-, -, h⟩ := Returns.of_bind (returns_ok h)
  cases i with
  | null =>
    have hm : m = j := by cases j <;> exact Returns.of_pure h
    rw [hm]
    exact ⟨by cases j <;> trivial, .refl j⟩
  | closed d l u =>
    cases j with
    | null =>
      rw [Returns.of_pure h]
      exact ⟨.refl _, trivial⟩
    | closed d' l' u' =>
      obtain ⟨low, hlow, h⟩ := Returns.of_bind h
      obtain ⟨high, hhigh, h⟩ := Returns.of_bind h
      rw [Returns.of_pure h]
      have hlow := LinExpr.minBound_denote hlow
      have hhigh := LinExpr.maxBound_denote hhigh
      exact ⟨fun v => ⟨(hlow v).1, (hhigh v).1⟩, fun v => ⟨(hlow v).2, (hhigh v).2⟩⟩

theorem foldlM_union_widens {rest : List Interval} (h : rest.foldlM union i = .ok m) :
    ∀ j ∈ i :: rest, m.Widens j := by
  refine returns_foldlM (P := fun done acc => ∀ j ∈ i :: done, acc.Widens j) (returns_ok h)
    (by simpa using Widens.refl i) ?_
  intro done j acc next _ hacc hnext k hk
  obtain ⟨hleft, hright⟩ := union_widens hnext
  rw [← List.cons_append] at hk
  rcases List.mem_append.mp hk with hk | hk
  · exact hleft.trans (hacc k hk)
  · rw [List.mem_singleton.mp hk]
    exact hright

/-- An interval that reaches as far as another one contains it, if the two can be compared. -/
theorem Widens.contains {b : Bool} (h : m.Widens i) (hb : m.contains i = .ok b) : b = true := by
  obtain ⟨-, -, hb⟩ := Returns.of_bind (returns_ok hb)
  cases i with
  | null => cases m <;> exact Returns.of_pure hb
  | closed d l u =>
    cases m with
    | null => exact h.elim
    | closed d' l' u' =>
      obtain ⟨low, hlow, hb⟩ := Returns.of_bind hb
      obtain ⟨high, hhigh, hb⟩ := Returns.of_bind hb
      obtain ⟨hlow, -⟩ := LinExpr.ordered_ok hlow
      obtain ⟨hhigh, -⟩ := LinExpr.ordered_ok hhigh
      have hvalue := LinExpr.compareBound_denote l' l fun _ => 0
      have hvalue' := LinExpr.compareBound_denote u' u fun _ => 0
      have hreach := h fun _ => 0
      rw [Returns.of_pure hb, decide_eq_true_eq]
      constructor
      · rintro rfl
        rw [hlow] at hvalue
        exact absurd hvalue (not_lt.mpr hreach.1)
      · rintro rfl
        rw [hhigh] at hvalue'
        exact absurd hvalue' (not_lt.mpr hreach.2)

end Interval

namespace IntervalGroup

variable {groups : List IntervalGroup} {g g' : IntervalGroup} {d : Dimension}

/-- A combined group has over each dimension what is combined over it. -/
theorem generate_find? {how : Combination} (h : generate how groups = .ok g) (hg : g' ∈ groups)
    (hd : d ∈ g'.dimensions) :
    ∃ m, combineOver how groups d = .ok (some m) ∧ g.find? d = some m := by
  obtain ⟨found, hfound, h⟩ := Returns.of_bind (returns_ok h)
  have hin : d ∈ (groups.flatMap dimensions).eraseDups :=
    List.mem_eraseDups.mpr (List.mem_flatMap.mpr ⟨g', hg, hd⟩)
  obtain ⟨o, ho, hover⟩ := exists_of_forall₂ (returns_mapM (returns_ok hfound)) hin
  obtain ⟨m, rfl, hm⟩ := combineOver_present hover hg hd
  have hkept : m ∈ found.filterMap id := List.mem_filterMap.mpr ⟨some m, ho, rfl⟩
  exact ⟨m, hover, find?_dim (build_dimensions_nodup h) ((build_perm h).mem_iff.mpr hkept) hm⟩

/-- Over each dimension, a union reaches as far as every member. -/
theorem generate_union_widens (h : generate .union groups = .ok g) (hg : g' ∈ groups)
    (hd : d ∈ g'.dimensions) :
    ∃ i m, g'.find? d = some i ∧ g.find? d = some m ∧ m.Widens i := by
  obtain ⟨m, hover, hm⟩ := generate_find? h hg hd
  obtain ⟨i, hi⟩ : ∃ i, g'.find? d = some i := by
    obtain ⟨i, hi, hid⟩ := List.mem_map.mp hd
    exact Option.isSome_iff_exists.mp (List.find?_isSome.mpr ⟨i, hi, by simpa using hid⟩)
  refine ⟨i, m, hi, hm, ?_⟩
  have hin : i ∈ groups.filterMap (·.find? d) := List.mem_filterMap.mpr ⟨g', hg, hi⟩
  unfold combineOver at hover
  generalize groups.filterMap (·.find? d) = is at hin hover
  cases is with
  | nil => cases hin
  | cons first rest =>
    obtain ⟨k, hfold, hk⟩ := returns_map (returns_ok hover)
    rw [Option.some.inj hk]
    exact Interval.foldlM_union_widens hfold i hin

end IntervalGroup

namespace IterationSpace

variable {spaces : List IterationSpace} {s u : IterationSpace} {d : Dimension} {dir : Direction}

/-- The directions of one more space are all taken over. -/
theorem mergeDirections_takes {known directions : SortedMap Dimension Direction}
    (h : mergeDirections known s = .ok directions) (hd : s.directions.find? d = some dir) :
    directions.find? d = some dir := by
  refine returns_foldlM (P := fun seen (m : SortedMap Dimension Direction) => ∀ e ∈ seen,
    m.find? e.1 = some e.2) (returns_ok h) (by simp) ?_ (d, dir) (SortedMap.mem_entries_of_find? hd)
  intro seen e m next _ hm hnext
  rw [List.forall_mem_append, List.forall_mem_singleton]
  split at hnext
  · rename_i existing hexisting
    split at hnext
    · rename_i hsame
      cases hnext
      exact ⟨hm, hsame ▸ hexisting⟩
    · cases hnext
  · rename_i hnone
    cases hnext
    refine ⟨fun e' he' => ?_, SortedMap.find?_insert_self ..⟩
    have hne : e'.1 ≠ e.1 := by
      intro he
      have hfound := hm e' he'
      rw [he, hnone] at hfound
      cases hfound
    rw [SortedMap.find?_insert, if_neg hne]
    exact hm e' he'

/-- Every direction that a member lists is that of the union. -/
theorem find?_directions_of_mem (h : union spaces = .ok u) (hs : s ∈ spaces)
    (hd : s.directions.find? d = some dir) : u.directions.find? d = some dir := by
  refine returns_foldlM (P := fun seen (m : SortedMap Dimension Direction) => ∀ s ∈ seen,
    s.directions.find? d = some dir → m.find? d = some dir) (returns_ok (union_directions h))
    (by simp) ?_ s hs hd
  intro seen t m next _ hm hnext
  rw [List.forall_mem_append, List.forall_mem_singleton]
  refine ⟨fun s hs hd => ?_, mergeDirections_takes hnext⟩
  rw [find?_mergeDirections hnext, hm s hs hd]
  rfl

/-- Only a listed direction is backward. -/
theorem listed_of_backward (h : s.direction d = .backward) :
    s.directions.find? d = some .backward := by
  unfold direction at h
  cases hdir : s.directions.find? d with
  | none =>
    rw [hdir] at h
    cases h
  | some dir =>
    rw [hdir] at h
    exact congrArg some h

/-- A member that does not list the direction of a dimension that others list as backward. -/
def Overruled (spaces : List IterationSpace) (s : IterationSpace) (d : Dimension) : Prop :=
  s.directions.find? d = none ∧ ∃ t ∈ spaces, t.directions.find? d = some .backward

/-- A union runs along a dimension as a member does, unless that member is overruled. -/
theorem direction_union_iff (h : union spaces = .ok u) (hs : s ∈ spaces) :
    u.direction d = s.direction d ↔ ¬Overruled spaces s d := by
  unfold Overruled direction
  cases hd : s.directions.find? d with
  | some dir => simp [find?_directions_of_mem h hs hd]
  | none =>
    simp only [Option.getD_none, true_and]
    constructor
    · rintro hforward ⟨t, ht, hback⟩
      rw [find?_directions_of_mem h ht hback] at hforward
      cases hforward
    · intro hnone
      rw [find?_directions_union h]
      cases hfound : spaces.findSome? (·.directions.find? d) with
      | none => rfl
      | some dir =>
        obtain ⟨t, ht, hdir⟩ := List.exists_of_findSome?_eq_some hfound
        cases dir with
        | forward => rfl
        | backward => exact absurd ⟨t, ht, hdir⟩ hnone

/-- A union of spaces has the dimensions of every member, with intervals that contain those of the
member where the two can be compared. -/
theorem union_contains (h : union spaces = .ok u) (hs : s ∈ spaces) (hd : d ∈ s.dimensions) :
    d ∈ u.dimensions ∧ ∃ i m, s.intervals.find? d = some i ∧ u.intervals.find? d = some m ∧
      m.Widens i ∧ ∀ b, m.contains i = .ok b → b = true := by
  obtain ⟨i, m, hi, hm, hwide⟩ :=
    IntervalGroup.generate_union_widens (union_intervals h) (List.mem_map_of_mem hs) hd
  refine ⟨?_, i, m, hi, hm, hwide, fun b => hwide.contains⟩
  exact IntervalGroup.dim_of_find? hm ▸ List.mem_map_of_mem (List.mem_of_find?_eq_some hm)

/-- Clusters are merged, in spite of opposite directions along a dimension, only if the one that
runs forward is overruled. -/
theorem overruled_of_ofClusters {cs : List Cluster} {a b c : Cluster}
    (h : Cluster.ofClusters cs = .ok c) (ha : a ∈ cs) (hb : b ∈ cs)
    (hforward : a.ispace.direction d = .forward) (hback : b.ispace.direction d = .backward) :
    Overruled (cs.map Cluster.ispace) a.ispace d := by
  obtain ⟨first, rest, rfl⟩ := List.exists_cons_of_ne_nil (List.ne_nil_of_mem ha)
  have hunion := (Cluster.ofClusters_parts h).ispace
  have hlisted := listed_of_backward hback
  refine ⟨?_, b.ispace, List.mem_map_of_mem hb, hlisted⟩
  have hu := find?_directions_of_mem hunion (List.mem_map_of_mem hb) hlisted
  cases hdir : a.ispace.directions.find? d with
  | none => rfl
  | some dir =>
    rw [find?_directions_of_mem hunion (List.mem_map_of_mem ha) hdir] at hu
    rw [direction, hdir, Option.some.inj hu] at hforward
    cases hforward

/-- Fusion compares whole loops, so it overrules no cluster. -/
theorem not_overruled_of_join? {a b c : Cluster} (h : Fusion.join? a b = .ok (some c))
    (hs : s ∈ [a.ispace, b.ispace]) (hd : d ∈ s.dimensions) :
    ¬Overruled [a.ispace, b.ispace] s d := by
  have hloops : ∀ t ∈ [a.ispace, b.ispace], t.loops = a.ispace.loops := by
    rw [List.forall_mem_cons, List.forall_mem_singleton]
    exact ⟨rfl, (Fusion.join?_cases h).1.symm⟩
  rintro ⟨hnone, t, ht, hback⟩
  have hsame := direction_of_loops ((hloops t ht).trans (hloops s hs).symm) hd
  rw [direction, direction, hnone, hback] at hsame
  cases hsame

/-- A union has all dimensions of its members with intervals that contain theirs, and runs along
each as a member does, unless the member lists no direction and another one lists backward. Merged
clusters run as the union of their spaces, so clusters with opposite directions are merged only if
the one that runs forward is such a member; and fusion never merges those. -/
theorem union_keepsDirection_iff (h : union spaces = .ok u) (hs : s ∈ spaces)
    (hd : d ∈ s.dimensions) :
    d ∈ u.dimensions ∧ (u.direction d = s.direction d ↔ ¬Overruled spaces s d) ∧
    (∃ i m, s.intervals.find? d = some i ∧ u.intervals.find? d = some m ∧ m.Widens i ∧
      ∀ b, m.contains i = .ok b → b = true) ∧
    (∀ cs c, cs.map Cluster.ispace = spaces → Cluster.ofClusters cs = .ok c → c.ispace = u ∧
      ∀ a ∈ cs, ∀ b ∈ cs, a.ispace.direction d = .forward → b.ispace.direction d = .backward →
        Overruled spaces a.ispace d) ∧
    ∀ a b c, [a.ispace, b.ispace] = spaces → Fusion.join? a b = .ok (some c) →
      ¬Overruled spaces s d := by
  obtain ⟨hin, hcontains⟩ := union_contains h hs hd
  refine ⟨hin, direction_union_iff h hs, hcontains, fun cs c hspaces hmerged => ?_,
    fun a b c hspaces hjoin => ?_⟩
  · subst hspaces
    refine ⟨?_, fun a ha b hb => overruled_of_ofClusters hmerged ha hb⟩
    obtain ⟨a, ha, -⟩ := List.mem_map.mp hs
    obtain ⟨first, rest, rfl⟩ := List.exists_cons_of_ne_nil (List.ne_nil_of_mem ha)
    exact Except.ok.inj ((Cluster.ofClusters_parts hmerged).ispace.symm.trans h)
  · subst hspaces
    exact not_overruled_of_join? hjoin hs hd

def alongX (directions : SortedMap Dimension Direction) : IterationSpace :=
  ⟨.ofIntervals [.closed (.basic "x") .zero .zero], .empty, directions⟩

theorem union_keepsDirection_backward :
    ∃ u, union [alongX (.singleton (.basic "x") .backward),
        alongX (.singleton (.basic "x") .backward)] = .ok u ∧
      u.direction (.basic "x") = .backward := by
  obtain ⟨u, hu, -⟩ := exists_of_toOption
    (x := union [alongX (.singleton (.basic "x") .backward),
      alongX (.singleton (.basic "x") .backward)])
    (f := fun _ => ()) (b := ()) (by decide +kernel)
  obtain ⟨-, hkeeps, -⟩ := union_keepsDirection_iff hu List.mem_cons_self
    (d := .basic "x") (by decide +kernel)
  refine ⟨u, hu, (hkeeps.mpr ?_).trans (by decide +kernel)⟩
  rintro ⟨hnone, -⟩
  exact absurd hnone (by decide +kernel)

/-- The loop that lists no direction runs forward, and backward in the union. -/
theorem union_turns_unlisted :
    ∃ u, union [alongX .empty, alongX (.singleton (.basic "x") .backward)] = .ok u ∧
      .basic "x" ∈ (alongX .empty).dimensions ∧
      (alongX .empty).direction (.basic "x") = .forward ∧
      u.direction (.basic "x") = .backward := by
  obtain ⟨u, hu, hdir⟩ := exists_of_toOption
    (x := union [alongX .empty, alongX (.singleton (.basic "x") .backward)])
    (f := fun u => u.direction (.basic "x")) (b := .backward) (by decide +kernel)
  exact ⟨u, hu, by decide +kernel, rfl, hdir⟩

end IterationSpace
end LoopNest
