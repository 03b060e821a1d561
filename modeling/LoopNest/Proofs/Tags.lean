import LoopNest.Dependence
import LoopNest.Pass.Blocking
import LoopNest.Proofs.Maps

namespace LoopNest
namespace Properties

theorem isParallel_iff {p : Properties} {d : Dimension} :
    p.isParallel d = true ↔
      ∃ tags, p.find? d = some tags ∧ tags.toList.any Property.isParallel := by
  unfold isParallel of
  cases p.find? d with
  | none => simp [SortedSet.empty]
  | some tags => simp

theorem isSome_of_mem {p : Properties} {d : Dimension} {t : Property} (h : t ∈ (p.of d).toList) :
    (p.find? d).isSome := by
  unfold of at h
  cases hd : p.find? d with
  | none => simp [hd, SortedSet.empty] at h
  | some tags => rfl

theorem isSome_of_isParallel {p : Properties} (h : p.isParallel d) : (p.find? d).isSome := by
  obtain ⟨t, ht, -⟩ := List.any_eq_true.mp h
  exact isSome_of_mem ht

theorem isParallel_congr {p q : Properties} (h : p.find? d = q.find? d) :
    p.isParallel d = q.isParallel d := by
  rw [isParallel, isParallel, of, of, h]

theorem find?_tag (p : Properties) (d : Dimension) (tags : List Property) (d' : Dimension) :
    (p.tag d tags).find? d' = if d' = d then some ((p.of d).insertMany tags) else p.find? d' :=
  SortedMap.find?_insert _ _ _ _

theorem find?_drop (p : Properties) (d d' : Dimension) :
    (p.drop d).find? d' = if d' = d then none else p.find? d' :=
  SortedMap.find?_erase _ _ _

theorem find?_remove (p : Properties) (d : Dimension) (tag : Property) (d' : Dimension) :
    (p.remove d tag).find? d' =
      if d' = d then (p.find? d).map (·.erase tag) else p.find? d' := by
  unfold remove
  cases hd : p.find? d with
  | none =>
    by_cases h : d' = d
    · simp [h, hd]
    · simp [h]
  | some tags => exact SortedMap.find?_insert _ _ _ _

theorem find?_retain (p : Properties) (keep : Dimension → Bool) (d : Dimension) :
    (p.retain keep).find? d = if keep d then p.find? d else none :=
  SortedMap.find?_filterKeys _ _ _

theorem of_tag (p : Properties) (d : Dimension) (tags : List Property) (d' : Dimension) :
    (p.tag d tags).of d' = if d' = d then (p.of d).insertMany tags else p.of d' := by
  rw [of, find?_tag]
  split <;> rfl

theorem of_drop (p : Properties) (d d' : Dimension) :
    (p.drop d).of d' = if d' = d then .empty else p.of d' := by
  rw [of, find?_drop]
  split <;> rfl

theorem of_retain (p : Properties) (keep : Dimension → Bool) (d : Dimension) :
    (p.retain keep).of d = if keep d then p.of d else .empty := by
  rw [of, find?_retain]
  split <;> rfl

theorem mem_tag {p : Properties} {d d' : Dimension} {tags : List Property} {t : Property} :
    t ∈ ((p.tag d tags).of d').toList ↔ t ∈ (p.of d').toList ∨ d' = d ∧ t ∈ tags := by
  rw [of_tag]
  split
  · rename_i hd
    rw [SortedSet.mem_insertMany, hd]
    simp only [true_and, or_comm]
  · rename_i hd
    simp only [hd, false_and, or_false]

theorem mem_remove {p : Properties} {d d' : Dimension} {t t' : Property} :
    t' ∈ ((p.remove d t).of d').toList ↔ t' ∈ (p.of d').toList ∧ ¬(d' = d ∧ t' = t) := by
  rw [of, find?_remove]
  split
  · rename_i hd
    subst hd
    unfold of
    cases p.find? d' with
    | none => simp [SortedSet.empty]
    | some tags => simp [SortedSet.mem_erase, and_comm]
  · rename_i hd
    simp only [hd, false_and, not_false_eq_true, and_true]
    rfl

/-- A dimension that turns sequential loses its parallel tags and no others. -/
theorem mem_sequentialize {p : Properties} {d d' : Dimension} {t : Property} :
    t ∈ ((p.sequentialize d).of d').toList ↔
      t ∈ (p.of d').toList ∧ ¬(d' = d ∧ t.isParallel) ∨ d' = d ∧ t = .sequential := by
  unfold sequentialize
  rw [mem_tag, mem_remove, mem_remove, List.mem_singleton, Property.isParallel, decide_eq_true_eq,
    and_assoc, ← not_or, ← and_or_left]

/-- Tagging dimensions adds the tags of each, and no others. -/
theorem mem_of_foldl_tag (tags : Dimension → List Property) {ds : List Dimension}
    {p : Properties} {d : Dimension} {t : Property} :
    t ∈ ((ds.foldl (fun p d => p.tag d (tags d)) p).of d).toList ↔
      t ∈ (p.of d).toList ∨ d ∈ ds ∧ t ∈ tags d := by
  induction ds generalizing p with
  | nil => simp
  | cons e ds ih =>
    rw [List.foldl_cons, ih, of_tag]
    by_cases hd : d = e
    · subst hd
      rw [if_pos rfl, SortedSet.mem_insertMany]
      simp only [List.mem_cons, true_or, true_and]
      grind
    · rw [if_neg hd, List.mem_cons]
      simp only [hd, false_or]

theorem find?_foldl_tag (tags : Dimension → List Property) {ds : List Dimension} {p : Properties}
    {d : Dimension} (h : d ∉ ds) :
    (ds.foldl (fun p d => p.tag d (tags d)) p).find? d = p.find? d := by
  induction ds generalizing p with
  | nil => rfl
  | cons e ds ih =>
    rw [List.mem_cons, not_or] at h
    obtain ⟨hne, hnot⟩ := h
    rw [List.foldl_cons, ih hnot, find?_tag, if_neg hne]

/-- A merge combines what both sides know of a dimension, and takes over what only one knows. -/
theorem find?_merge (p q : Properties) (d : Dimension) :
    (p.merge q).find? d = Option.merge mergeTags (p.find? d) (q.find? d) := by
  have hfold : (p.merge q).find? d = _ :=
    SortedMap.find?_foldl_insert (SortedMap.keys_nodup q.tags) _ p.tags d
  have hq : q.find? d = (q.tags.entries.find? fun e => d = e.1).map Prod.snd :=
    SortedMap.find?_entries _ _
  have hp : p.tags.find? d = p.find? d := rfl
  rw [hfold, hq, hp]
  cases he : q.tags.entries.find? fun e => d = e.1 with
  | none => cases p.find? d <;> rfl
  | some e =>
    have hd : d = e.1 := by simpa using List.find?_some he
    rw [hd]
    cases hp : p.find? e.1 <;> simp [hp]

theorem isParallel_mergeTags {ours theirs : SortedSet Property}
    (h : (mergeTags ours theirs).toList.any Property.isParallel) :
    ours.toList.any Property.isParallel ∧ theirs.toList.any Property.isParallel := by
  have hmem : ∃ t, t.isParallel ∧ t ∈ (ours.inter theirs).toList := by
    obtain ⟨t, ht, hp⟩ := List.any_eq_true.mp h
    unfold mergeTags at ht
    dsimp only at ht
    split at ht
    · rcases SortedSet.mem_insert.mp ht with rfl | ht
      · cases hp
      · exact ⟨t, hp, (SortedSet.mem_filter.mp ht).1⟩
    · exact ⟨t, hp, ht⟩
  obtain ⟨t, hp, ht⟩ := hmem
  obtain ⟨ho, ht⟩ := SortedSet.mem_inter.mp ht
  exact ⟨List.any_eq_true.mpr ⟨t, ho, hp⟩, List.any_eq_true.mpr ⟨t, ht, hp⟩⟩

/-- After a merge a dimension is parallel only if it is on each side that knows it. -/
theorem isParallel_merge {p q : Properties} (h : (p.merge q).isParallel d) :
    ((p.find? d).isSome → p.isParallel d) ∧ ((q.find? d).isSome → q.isParallel d) := by
  obtain ⟨tags, ht, hp⟩ := isParallel_iff.mp h
  rw [find?_merge] at ht
  cases hours : p.find? d with
  | none =>
    refine ⟨fun hs => by simp at hs, fun hs => ?_⟩
    cases htheirs : q.find? d with
    | none => simp [htheirs] at hs
    | some theirs =>
      rw [hours, htheirs] at ht
      cases ht
      exact isParallel_iff.mpr ⟨_, htheirs, hp⟩
  | some ours =>
    cases htheirs : q.find? d with
    | none =>
      rw [hours, htheirs] at ht
      cases ht
      exact ⟨fun _ => isParallel_iff.mpr ⟨_, hours, hp⟩, fun hs => by simp at hs⟩
    | some theirs =>
      rw [hours, htheirs] at ht
      cases ht
      obtain ⟨ho, ht⟩ := isParallel_mergeTags hp
      exact ⟨fun _ => isParallel_iff.mpr ⟨_, hours, ho⟩,
        fun _ => isParallel_iff.mpr ⟨_, htheirs, ht⟩⟩

theorem isSome_merge {p q : Properties} (h : (p.find? d).isSome) :
    ((p.merge q).find? d).isSome := by
  rw [find?_merge]
  cases hp : p.find? d with
  | none => simp [hp] at h
  | some ours => cases q.find? d <;> rfl

theorem isParallel_foldl_merge {qs : List Properties} {p : Properties}
    (h : (qs.foldl merge p).isParallel d) :
    ((p.find? d).isSome → p.isParallel d) ∧ ∀ q ∈ qs, (q.find? d).isSome → q.isParallel d := by
  induction qs generalizing p with
  | nil => exact ⟨fun _ => h, by simp⟩
  | cons q qs ih =>
    obtain ⟨hm, hqs⟩ := ih h
    refine ⟨fun hs => (isParallel_merge (hm (isSome_merge hs))).1 hs, ?_⟩
    refine List.forall_mem_cons.mpr ⟨fun hs => (isParallel_merge (hm ?_)).2 hs, hqs⟩
    rw [find?_merge]
    cases hq : q.find? d with
    | none => simp [hq] at hs
    | some theirs => cases p.find? d <;> rfl

theorem isParallel_sequentialize (p : Properties) (d d' : Dimension) :
    (p.sequentialize d).isParallel d' = true ↔ d' ≠ d ∧ p.isParallel d' = true := by
  unfold isParallel
  simp only [List.any_eq_true, mem_sequentialize]
  constructor
  · rintro ⟨t, ⟨ht, hkept⟩ | ⟨-, rfl⟩, hp⟩
    · exact ⟨fun hd => hkept ⟨hd, hp⟩, t, ht, hp⟩
    · cases hp
  · rintro ⟨hne, t, ht, hp⟩
    exact ⟨t, .inl ⟨ht, fun hd => hne hd.1⟩, hp⟩

theorem isParallel_affect {p : Properties} (h : (p.affect d).isParallel d') : p.isParallel d' := by
  unfold affect at h
  split at h
  · rename_i hindep
    by_cases he : d' = d
    · subst he
      exact List.any_eq_true.mpr ⟨_, SortedSet.contains_iff.mp hindep, rfl⟩
    · have hsame : ((p.remove d .parallelIndep).tag d [.parallel]).find? d' = p.find? d' := by
        simp [find?_tag, find?_remove, he]
      rwa [isParallel_congr hsame] at h
  · exact h

theorem isParallel_narrowAlong {p : Properties} (h : (p.narrowAlong deps e).isParallel d) :
    p.isParallel d ∧ (e = d → ∀ c ∈ deps.filterMap Distance.carrier?, c.sharesRoot d = false) := by
  unfold narrowAlong at h
  split at h
  · obtain ⟨hne, hp⟩ := (isParallel_sequentialize p e d).mp h
    exact ⟨hp, fun he => absurd he.symm hne⟩
  · rename_i hcarried
    have hfree : e = d → ∀ c ∈ deps.filterMap Distance.carrier?, c.sharesRoot d = false := by
      rintro rfl c hc
      exact Bool.eq_false_iff.mpr fun hs => hcarried (List.any_eq_true.mpr ⟨c, hc, hs⟩)
    split at h
    · exact ⟨isParallel_affect h, hfree⟩
    · exact ⟨h, hfree⟩

/-- Narrowing by dependences only takes parallel tags away, and from every dimension with a
dependence to carry. -/
theorem isParallel_narrow {p : Properties} (h : (p.narrow dims deps).isParallel d) :
    p.isParallel d ∧
      (d ∈ dims → ∀ c ∈ deps.filterMap Distance.carrier?, c.sharesRoot d = false) := by
  unfold narrow at h
  induction dims generalizing p with
  | nil => exact ⟨h, by simp⟩
  | cons e dims ih =>
    obtain ⟨hp, hrest⟩ := ih h
    obtain ⟨hp, he⟩ := isParallel_narrowAlong hp
    refine ⟨hp, fun hd => ?_⟩
    rcases List.mem_cons.mp hd with rfl | hd
    · exact he rfl
    · exact hrest hd

theorem isParallel_of_drop {p : Properties} (h : (p.drop d).isParallel d') : p.isParallel d' := by
  obtain ⟨tags, ht, hp⟩ := isParallel_iff.mp h
  rw [find?_drop] at ht
  split at ht
  · cases ht
  · exact isParallel_iff.mpr ⟨tags, ht, hp⟩

theorem isParallel_of_retain {p : Properties} (h : (p.retain keep).isParallel d) :
    p.isParallel d := by
  obtain ⟨tags, ht, hp⟩ := isParallel_iff.mp h
  rw [find?_retain] at ht
  split at ht
  · exact isParallel_iff.mpr ⟨tags, ht, hp⟩
  · cases ht

/-- Tagging dimensions makes parallel only those that get a parallel tag. -/
theorem isParallel_foldl_tag {tags : Dimension → List Property} {ds : List Dimension}
    {p : Properties} (h : (ds.foldl (fun p d => p.tag d (tags d)) p).isParallel d) :
    p.isParallel d ∨ d ∈ ds ∧ (tags d).any Property.isParallel := by
  obtain ⟨t, ht, hp⟩ := List.any_eq_true.mp h
  rcases (mem_of_foldl_tag tags).mp ht with ht | ⟨hd, ht⟩
  · exact .inl (List.any_eq_true.mpr ⟨t, ht, hp⟩)
  · exact .inr ⟨hd, List.any_eq_true.mpr ⟨t, ht, hp⟩⟩

theorem isSequential_iff {p : Properties} {d : Dimension} :
    p.isSequential d = true ↔ .sequential ∈ (p.of d).toList := SortedSet.contains_iff

theorem sequential_mem_mergeTags {ours theirs : SortedSet Property}
    (h : .sequential ∈ ours.toList ∨ .sequential ∈ theirs.toList) :
    .sequential ∈ (mergeTags ours theirs).toList := by
  have hor : (ours.contains .sequential || theirs.contains .sequential) = true := by
    rwa [Bool.or_eq_true, SortedSet.contains_iff, SortedSet.contains_iff]
  unfold mergeTags
  dsimp only
  rw [if_pos hor]
  exact SortedSet.mem_insert.mpr (.inl rfl)

/-- A dimension that is sequential on either side stays so. -/
theorem isSequential_merge {p q : Properties} (h : p.isSequential d ∨ q.isSequential d) :
    (p.merge q).isSequential d := by
  rw [isSequential_iff, isSequential_iff, of, of] at h
  rw [isSequential_iff, of, find?_merge]
  cases hp : p.find? d with
  | none => cases hq : q.find? d <;> simp_all [SortedSet.empty]
  | some ours =>
    cases hq : q.find? d with
    | none => simp_all [SortedSet.empty]
    | some theirs =>
      rw [hp, hq] at h
      exact sequential_mem_mergeTags h

theorem isSequential_affect (p : Properties) (d d' : Dimension) :
    (p.affect d).isSequential d' ↔ p.isSequential d' := by
  unfold affect
  split
  · simp [isSequential_iff, mem_tag, mem_remove]
  · rfl

/-- Narrowing makes sequential exactly the dimensions with a dependence to carry. -/
theorem isSequential_narrow {p : Properties} {dims : List Dimension} {deps : List Distance}
    {d : Dimension} : (p.narrow dims deps).isSequential d ↔ p.isSequential d ∨
      d ∈ dims ∧ ∃ c ∈ deps.filterMap Distance.carrier?, c.sharesRoot d := by
  have hstep (p : Properties) (e : Dimension) : (p.narrowAlong deps e).isSequential d ↔
      p.isSequential d ∨ d = e ∧ ∃ c ∈ deps.filterMap Distance.carrier?, c.sharesRoot d := by
    unfold narrowAlong
    rw [← List.any_eq_true]
    split
    · rename_i hcarried
      rw [isSequential_iff, isSequential_iff, mem_sequentialize]
      by_cases hd : d = e
      · subst hd
        simp [hcarried]
      · simp [hd, Property.isParallel]
    · rename_i hfree
      have hnone : ¬(d = e ∧ (deps.filterMap Distance.carrier?).any (·.sharesRoot d)) := by
        rintro ⟨rfl, hcarried⟩
        exact hfree hcarried
      rw [or_iff_left hnone]
      split
      · exact isSequential_affect p e d
      · rfl
  unfold narrow
  induction dims generalizing p with
  | nil => simp
  | cons e dims ih =>
    rw [List.foldl_cons]
    refine ih.trans ?_
    rw [hstep, List.mem_cons, or_assoc, ← or_and_right]

structure RunsInOrder (p : Properties) (d : Dimension) : Prop where
  sequential : p.isSequential d
  notParallel : p.isParallel d = false

/-- What runs in order on either side does so after a merge. -/
theorem runsInOrder_merge {p q : Properties} {d : Dimension}
    (h : p.RunsInOrder d ∨ q.RunsInOrder d) : (p.merge q).RunsInOrder d where
  sequential := isSequential_merge (h.imp RunsInOrder.sequential RunsInOrder.sequential)
  notParallel := by
    refine Bool.eq_false_iff.mpr fun hparallel => ?_
    obtain ⟨hours, htheirs⟩ := isParallel_merge hparallel
    rcases h with hp | hq
    · have hknown := isSome_of_mem (isSequential_iff.mp hp.sequential)
      exact Bool.eq_false_iff.mp hp.notParallel (hours hknown)
    · have hknown := isSome_of_mem (isSequential_iff.mp hq.sequential)
      exact Bool.eq_false_iff.mp hq.notParallel (htheirs hknown)

theorem RunsInOrder.narrow {p : Properties} {d : Dimension} (h : p.RunsInOrder d)
    (dims : List Dimension) (deps : List Distance) : (p.narrow dims deps).RunsInOrder d where
  sequential := isSequential_narrow.mpr (.inl h.sequential)
  notParallel := Bool.eq_false_iff.mpr fun hp =>
    Bool.eq_false_iff.mp h.notParallel (isParallel_narrow hp).1

/-- A dimension runs in order once it has a dependence to carry. -/
theorem runsInOrder_narrow (p : Properties) {dims : List Dimension} {deps : List Distance}
    {carrier d : Dimension} (hd : d ∈ dims) (hc : carrier ∈ deps.filterMap Distance.carrier?)
    (hroot : carrier.sharesRoot d) : (p.narrow dims deps).RunsInOrder d where
  sequential := isSequential_narrow.mpr (.inr ⟨hd, carrier, hc, hroot⟩)
  notParallel := Bool.eq_false_iff.mpr fun hp =>
    Bool.eq_false_iff.mp ((isParallel_narrow hp).2 hd carrier hc) hroot

theorem isTilable_iff {p : Properties} {d : Dimension} :
    p.isTilable d = true ↔ .tilable ∈ (p.of d).toList := SortedSet.contains_iff

/-- Other tags do not make a dimension tilable. -/
theorem isTilable_foldl_tag {tags : List Property} (hfree : .tilable ∉ tags) {ds : List Dimension}
    {p : Properties} :
    (ds.foldl (fun p d => p.tag d tags) p).isTilable d ↔ p.isTilable d := by
  rw [isTilable_iff, mem_of_foldl_tag fun _ => tags, isTilable_iff]
  exact or_iff_left fun ht => hfree ht.2

def tilable (p : Properties) : List Dimension :=
  (p.tags.entries.filter fun e => e.2.contains .tilable).map Prod.fst

theorem tilable_nodup (p : Properties) : p.tilable.Nodup :=
  (List.filter_sublist.map Prod.fst).nodup p.tags.keys_nodup

theorem mem_tilable {p : Properties} {d : Dimension} : d ∈ p.tilable ↔ p.isTilable d := by
  rw [tilable, List.mem_map, isTilable, has, of]
  constructor
  · rintro ⟨⟨e, tags⟩, he, rfl⟩
    obtain ⟨hin, ht⟩ := List.mem_filter.mp he
    have hfound : p.find? e = some tags := SortedMap.find?_of_mem hin
    rw [hfound]
    exact ht
  · intro ht
    cases hfound : p.find? d with
    | none =>
      rw [hfound] at ht
      cases ht
    | some tags =>
      rw [hfound] at ht
      exact ⟨(d, tags), List.mem_filter.mpr ⟨SortedMap.mem_entries_of_find? hfound, ht⟩, rfl⟩

end Properties

/-- Blocking a dimension takes its tilable tag away and gives none. -/
theorem Blocking.isTilable_inheritTags {p : Properties} :
    (inheritTags p d new).isTilable e ↔ p.isTilable e ∧ e ≠ d := by
  rw [inheritTags, Properties.isTilable_foldl_tag (by simp), Properties.isTilable_iff,
    Properties.of_drop, Properties.isTilable_iff]
  split
  · rename_i he
    exact iff_of_false List.not_mem_nil fun h => h.2 he
  · rename_i he
    exact (and_iff_left he).symm

/-- Blocking a tilable dimension leaves the other tilable ones. -/
theorem Blocking.tilable_inheritTags {p : Properties} (ht : p.isTilable d) :
    p.tilable.Perm (d :: (inheritTags p d new).tilable) := by
  have hnot : d ∉ (inheritTags p d new).tilable := fun hd =>
    (isTilable_inheritTags.mp (Properties.mem_tilable.mp hd)).2 rfl
  have hnd := List.nodup_cons.mpr ⟨hnot, Properties.tilable_nodup _⟩
  refine (List.perm_ext_iff_of_nodup p.tilable_nodup hnd).mpr fun e => ?_
  rw [List.mem_cons, Properties.mem_tilable, Properties.mem_tilable, isTilable_inheritTags]
  by_cases he : e = d
  · simp [he, ht]
  · simp [he]

/-- Only the new dimensions get tags, and only the blocked one loses its own. -/
theorem Blocking.find?_inheritTags {p : Properties} (he : e ∉ new) :
    (inheritTags p d new).find? e = if e = d then none else p.find? e :=
  (Properties.find?_foldl_tag (fun _ => (p.of d).toList.filter (· ≠ .tilable)) he).trans
    (Properties.find?_drop p d e)

theorem Blocking.mem_inheritTags {p : Properties} (he : e ∈ new) (hne : e ≠ d) {t : Property} :
    t ∈ ((inheritTags p d new).of e).toList ↔
      t ∈ (p.of e).toList ∨ t ∈ (p.of d).toList ∧ t ≠ .tilable := by
  unfold inheritTags
  rw [Properties.mem_of_foldl_tag fun _ => (p.of d).toList.filter (· ≠ .tilable),
    Properties.of_drop, if_neg hne, and_iff_right he, List.mem_filter, decide_eq_true_eq]

end LoopNest
