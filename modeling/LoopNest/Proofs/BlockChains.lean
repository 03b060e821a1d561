import LoopNest.Proofs.BlockScopes
import LoopNest.Proofs.PassFailures
import Mathlib.Data.Prod.Lex

namespace LoopNest

def Linked (relations : List (List Dimension)) (p q : Dimension) : Prop :=
  ∃ chain ∈ relations, (p, q) ∈ IntervalGroup.chainPairs chain

theorem linked_append {r s : List (List Dimension)} {p q : Dimension} :
    Linked (r ++ s) p q ↔ Linked r p q ∨ Linked s p q := by
  simp only [Linked, List.mem_append, or_and_right, exists_or]

theorem linked_cons {chain : List Dimension} {r : List (List Dimension)} {p q : Dimension} :
    Linked (chain :: r) p q ↔ (p, q) ∈ IntervalGroup.chainPairs chain ∨ Linked r p q := by
  simp only [Linked, List.mem_cons, exists_eq_or_imp]

/-- Neighbours along renamed chains are renamed neighbours. -/
theorem exists_of_linked_map {relations : List (List Dimension)} {f : Dimension → Dimension}
    {p q : Dimension} (h : Linked (relations.map (·.map f)) p q) :
    ∃ u v, Linked relations u v ∧ p = f u ∧ q = f v := by
  obtain ⟨chain, hchain, hp⟩ := h
  obtain ⟨old, hold, rfl⟩ := List.mem_map.mp hchain
  obtain ⟨⟨u, v⟩, huv, he⟩ := IntervalGroup.exists_of_mem_chainPairs_map hp
  obtain ⟨rfl, rfl⟩ := Prod.mk.inj he
  exact ⟨u, v, ⟨old, hold, huv⟩, rfl, rfl⟩

/-- Neighbours that get different names stay neighbours. -/
theorem linked_map {relations : List (List Dimension)} {f : Dimension → Dimension}
    {u v : Dimension} (h : Linked relations u v) (hne : f u ≠ f v) :
    Linked (relations.map (·.map f)) (f u) (f v) := by
  obtain ⟨chain, hchain, huv⟩ := h
  refine ⟨chain.map f, List.mem_map_of_mem hchain, List.mem_filter.mpr ⟨?_, decide_eq_true hne⟩⟩
  rw [← List.map_tail, List.zip_map]
  exact List.mem_map_of_mem (List.mem_filter.mp huv).1

/-- Pairs along which a rank grows do not form a cycle: the elements in the order of their ranks
suit them. -/
theorem exists_linearExtension?_of_rank {α β : Type} [DecidableEq α] [LinearOrder β]
    {elements : List α} {pairs : List (α × α)} (rank : α → β) (hnd : elements.Nodup)
    (hgrow : ∀ p ∈ pairs, p.1 ∈ elements ∧ rank p.1 < rank p.2) :
    ∃ order, linearExtension? elements pairs = some order := by
  have hperm := List.mergeSort_perm elements fun a b => decide (rank a ≤ rank b)
  have hsorted : (elements.mergeSort fun a b => decide (rank a ≤ rank b)).Pairwise
      fun a b => decide (rank a ≤ rank b) :=
    List.pairwise_mergeSort (by simpa using fun a b c => le_trans)
      (by simpa using fun a b => le_total (rank a) (rank b)) elements
  refine exists_linearExtension? (hperm.nodup_iff.mpr hnd) hperm fun p hp hin => ?_
  obtain ⟨hmem, hlt⟩ := hgrow p hp
  have hne : p.1 ≠ p.2 := fun he => hlt.ne (congrArg rank he)
  refine (Precedes.total (hperm.mem_iff.mpr hmem) (hperm.mem_iff.mpr hin) hne).resolve_right ?_
  intro hback
  have hle := List.pairwise_iff_forall_sublist.mp hsorted hback
  exact absurd (of_decide_eq_true hle) (not_le.mpr hlt)

namespace IntervalGroup

variable {intervals : List Interval} {relations : List (List Dimension)} {g : IntervalGroup}

/-- Chains that are too short to say something have no neighbours. -/
theorem linked_filter {p q : Dimension} :
    Linked (SortedSet.ofList (relations.filter (1 < ·.length))).toList p q ↔
      Linked relations p q := by
  refine exists_congr fun chain => ?_
  rw [SortedSet.mem_ofList, List.mem_filter, and_assoc]
  refine and_congr_right fun _ => and_iff_right_of_imp fun hp => ?_
  exact decide_eq_true (List.Sublist.length_le (precedes_of_mem_chainPairs hp))

theorem linked_build (h : build intervals relations = .ok g) {p q : Dimension} :
    Linked g.relations.toList p q ↔ Linked relations p q := by
  rw [(build_cases h).2.1]
  exact linked_filter

/-- A rank that grows along the chains rules out that they form a cycle. -/
theorem not_cyclic_of_rank {β : Type} [LinearOrder β] (rank : Dimension → β)
    (hgrow : ∀ p q, Linked relations p q → rank p < rank q)
    (h : build intervals relations = .error e) : ¬e.Is .cyclicRelations := by
  rintro ⟨message, rfl⟩
  unfold build at h
  dsimp only at h
  split at h
  · cases h
  · rename_i hrep
    have hnd := (firstRepeated?_eq_none.mp hrep).1
    rcases bind_error h with h | ⟨order, -, h⟩
    · unfold arrange at h
      dsimp only at h
      split at h
      · cases h
      · rename_i hnone
        obtain ⟨order, horder⟩ := exists_linearExtension?_of_rank rank
          (absent_append_nodup hnd) (fun p hp => by
            obtain ⟨chain, hchain, hp⟩ := List.mem_flatMap.mp hp
            refine ⟨mem_absent_append.mpr (.inr ⟨chain, hchain, ?_⟩),
              hgrow p.1 p.2 (linked_filter.mp ⟨chain, hchain, hp⟩)⟩
            exact (precedes_of_mem_chainPairs hp).left_mem)
        cases hnone.symm.trans horder
    · cases h

/-- All dimensions that chains relate can be put in the order of the chains, and the nest is in this
order. -/
theorem build_order (h : build intervals relations = .ok g) : ∃ order : List Dimension,
    order.Nodup ∧ (∀ a b, Relation.TransGen (Linked relations) a b → Precedes order a b) ∧
      ∀ a ∈ g.dimensions, ∀ b ∈ g.dimensions, Precedes order a b → Precedes g.dimensions a b := by
  obtain ⟨hnd, -, order, horder, hlisted⟩ := build_cases h
  have hnodup : order.Nodup :=
    (linearExtension?_perm horder).nodup_iff.mpr (absent_append_nodup hnd)
  refine ⟨order, hnodup, fun a b hpath => ?_, fun a ha b hb hab => ?_⟩
  · have hstep : ∀ {p q}, Linked relations p q → Precedes order p q := by
      intro p q hpq
      obtain ⟨chain, hchain, hp⟩ := (linked_build h).mpr hpq
      refine linearExtension?_precedes horder (List.mem_flatMap.mpr ⟨chain, hchain, hp⟩) ?_
      exact mem_absent_append.mpr
        (.inr ⟨chain, hchain, (precedes_of_mem_chainPairs hp).right_mem⟩)
    induction hpath with
    | single hpq => exact hstep hpq
    | tail _ hpq ih => exact ih.trans hnodup (hstep hpq)
  · rw [build_dimensions hlisted] at ha hb ⊢
    exact hab.filter (List.mem_filter.mp ha).2 (List.mem_filter.mp hb).2

/-- Where chains lead from one dimension to another one, the first stands outside the second. -/
theorem build_precedes_of_path (h : build intervals relations = .ok g) {a b : Dimension}
    (hpath : Relation.TransGen (Linked relations) a b) (ha : a ∈ g.dimensions)
    (hb : b ∈ g.dimensions) : Precedes g.dimensions a b := by
  obtain ⟨order, -, horder, hnest⟩ := build_order h
  exact hnest a ha b hb (horder a b hpath)

/-- A dimension from which chains lead to nothing behind another one stays outside this one. -/
theorem build_keeps (h : build intervals relations = .ok g) {a b : Dimension}
    (hab : Precedes (intervals.map Interval.dim) a b)
    (hup : ∀ e ∈ intervals.map Interval.dim, Relation.TransGen (Linked relations) e a →
      Precedes (intervals.map Interval.dim) e b) : Precedes g.dimensions a b := by
  obtain ⟨hnd, -, order, horder, hlisted⟩ := build_cases h
  have hmem : ∀ {e}, e ∈ g.dimensions ↔ e ∈ intervals.map Interval.dim :=
    ((build_perm h).map Interval.dim).mem_iff
  have ha := hmem.mpr hab.left_mem
  have hb := hmem.mpr hab.right_mem
  rw [build_dimensions hlisted] at ha hb ⊢
  refine Precedes.filter ?_ (List.mem_filter.mp ha).2 (List.mem_filter.mp hb).2
  -- the group: whatever has to come up to `a`
  have hself : a = a ∨ Relation.TransGen (Linked relations) a a := .inl rfl
  refine @linearExtension?_keeps _ _ _ _ _ horder (absent_append_nodup hnd)
    (fun e => e = a ∨ Relation.TransGen (Linked relations) e a) _ _ ?_ ?_
    (List.mem_append_right _ hab.left_mem) hself
  · rintro ⟨p, q⟩ hpq - hq
    obtain ⟨chain, hchain, hpq⟩ := List.mem_flatMap.mp hpq
    have hstep : Linked relations p q := (linked_build h).mp ⟨chain, hchain, hpq⟩
    rcases hq with rfl | hq
    · exact .inr (.single hstep)
    · exact .inr (.head hstep hq)
  · intro e he hea
    rcases List.mem_append.mp he with he | he
    · exact Precedes.append he hab.right_mem
    · refine List.Sublist.trans ?_ (List.sublist_append_right _ _)
      rcases hea with rfl | hea
      · exact hab
      · exact hup e he hea

/-- Where chains lead from a tail of the intervals nowhere but further down the tail, the tail stays
where it is. -/
theorem build_tail (h : build intervals relations = .ok g) {front tail : List Dimension}
    (hdims : intervals.map Interval.dim = front ++ tail)
    (hdown : ∀ z ∈ tail, ∀ x ∈ g.dimensions, Relation.TransGen (Linked relations) z x →
      Precedes tail z x) :
    ∃ front', front'.Perm front ∧ g.dimensions = front' ++ tail := by
  have hperm : g.dimensions.Perm (front ++ tail) := hdims ▸ (build_perm h).map Interval.dim
  have hnodup : (front ++ tail).Nodup := hdims ▸ (build_cases h).1
  refine Precedes.exists_append hnodup hperm fun a b hb hab => ?_
  refine build_keeps h (hdims ▸ hab) fun e he hea => ?_
  rw [hdims] at he ⊢
  rcases List.mem_append.mp he with he | he
  · exact Precedes.append he hb
  · have hea := hdown e he a (hperm.mem_iff.mpr hab.left_mem) hea
    have hab := hab.of_append_right hnodup hea.right_mem
    exact List.Sublist.trans (hea.trans (List.nodup_append.mp hnodup).2.1 hab)
      (List.sublist_append_right _ _)

/-- Intervals keep their order exactly if chains lead from none of them to one further out. -/
theorem build_intervals_iff (h : build intervals relations = .ok g) : g.intervals = intervals ↔
    ∀ a ∈ intervals.map Interval.dim, ∀ b ∈ intervals.map Interval.dim,
      Relation.TransGen (Linked relations) a b → Precedes (intervals.map Interval.dim) a b := by
  have hnd := (build_cases h).1
  have hperm := (build_perm h).map Interval.dim
  constructor
  · intro hkept a ha b hb hpath
    rw [← hkept] at ha hb ⊢
    exact build_precedes_of_path h hpath ha hb
  · intro hsuits
    refine eq_of_map_dim hnd (fun i hi => (build_perm h).mem_iff.mp hi) (fun i hi => hi) ?_
    refine Precedes.eq_of_perm hnd hperm fun a b hab => build_keeps h hab fun e he hea => ?_
    exact (hsuits e he a hab.left_mem hea).trans hnd hab

end IntervalGroup

theorem Precedes.idxOf_lt {α : Type} [DecidableEq α] {l : List α} {a b : α} (hl : l.Nodup)
    (h : Precedes l a b) : l.idxOf a < l.idxOf b := by
  induction l with
  | nil => cases h
  | cons x l ih =>
    obtain ⟨hx, hl⟩ := List.nodup_cons.mp hl
    rcases Precedes.cons_iff.mp h with ⟨rfl, hb⟩ | h
    · have hne : a ≠ b := fun he => hx (he ▸ hb)
      rw [List.idxOf_cons_self, List.idxOf_cons_ne l hne]
      exact Nat.succ_pos _
    · have ha : x ≠ a := fun he => hx (he ▸ h.left_mem)
      have hb : x ≠ b := fun he => hx (he ▸ h.right_mem)
      rw [List.idxOf_cons_ne l ha, List.idxOf_cons_ne l hb]
      exact Nat.succ_lt_succ (ih hl h)

def Cluster.chains (c : Cluster) : List (List Dimension) := c.ispace.intervals.relations.toList

/-- Chains lead from one dimension to the other one, also over dimensions that the nest lacks. -/
def Cluster.Chained (c : Cluster) : Dimension → Dimension → Prop :=
  Relation.TransGen (Linked c.chains)

structure Cluster.Unblocked (c : Cluster) : Prop where
  settled : c.ispace.Settled
  plain : ∀ d, c.ispace.intervals.Involves d → d.isBlock = false
  tags : ∀ d, (c.properties.find? d).isSome → d ∈ c.dimensions

theorem Cluster.foldl_tagged_ispace (tags : List (Dimension × List Property)) (c : Cluster) :
    (tags.foldl (fun c t => c.tagged t.1 t.2) c).ispace = c.ispace := by
  induction tags generalizing c with
  | nil => rfl
  | cons t tags ih => exact ih _

theorem Cluster.mem_of_foldl_tagged {tags : List (Dimension × List Property)} {c : Cluster}
    {d : Dimension}
    (h : ((tags.foldl (fun c t => c.tagged t.1 t.2) c).properties.find? d).isSome) :
    (c.properties.find? d).isSome ∨ d ∈ tags.map Prod.fst := by
  induction tags generalizing c with
  | nil => exact .inl h
  | cons t tags ih =>
    rw [List.map_cons, List.mem_cons]
    rcases ih h with h | h
    · have h : ((c.properties.tag t.1 t.2).find? d).isSome := h
      rw [Properties.find?_tag] at h
      by_cases ht : d = t.1
      · exact .inr (.inl ht)
      · rw [if_neg ht] at h
        exact .inl h
    · exact .inr (.inr h)

/-- A nest over dimensions that are no blocks, in an order that suits its chains. -/
theorem Cluster.along_unblocked {dims : List Dimension} {chains : List (List Dimension)}
    {tags : List (Dimension × List Property)} (hsettled : (along dims chains tags).ispace.Settled)
    (hplain : ∀ d ∈ dims ++ chains.flatten, d.isBlock = false)
    (htags : ∀ d ∈ tags.map Prod.fst, d ∈ dims) : (along dims chains tags).Unblocked := by
  have hdims : (along dims chains tags).dimensions = dims := by
    rw [Cluster.dimensions, along, foldl_tagged_ispace]
    exact (List.map_map ..).trans (List.map_id dims)
  refine ⟨hsettled, ?_, fun d hd => ?_⟩
  · rintro d (hd | ⟨chain, hchain, hd⟩)
    · exact hplain d (List.mem_append_left _ (hdims ▸ hd))
    · rw [along, foldl_tagged_ispace] at hchain
      have hchain : chain ∈ (SortedSet.ofList chains).toList := hchain
      rw [SortedSet.mem_ofList] at hchain
      exact hplain d (List.mem_append_right _ (List.mem_flatten_of_mem hchain hd))
  · rw [hdims]
    exact htags d ((mem_of_foldl_tagged hd).resolve_left Bool.false_ne_true)

theorem Cluster.involves_of_linked {c : Cluster} {u v : Dimension} (h : Linked c.chains u v) :
    c.ispace.intervals.Involves u ∧ c.ispace.intervals.Involves v := by
  obtain ⟨chain, hchain, hp⟩ := h
  have hpair := IntervalGroup.precedes_of_mem_chainPairs hp
  exact ⟨.inr ⟨chain, hchain, hpair.left_mem⟩, .inr ⟨chain, hchain, hpair.right_mem⟩⟩

theorem Cluster.Unblocked.plain_of_linked {c : Cluster} (hc : c.Unblocked) {u v : Dimension}
    (h : Linked c.chains u v) : u.isBlock = false ∧ v.isBlock = false :=
  (Cluster.involves_of_linked h).imp (hc.plain u) (hc.plain v)

theorem Cluster.Unblocked.mem_of_isTilable {c : Cluster} (hc : c.Unblocked) {d : Dimension}
    (h : c.properties.isTilable d) : d ∈ c.dimensions := by
  refine hc.tags d ?_
  have ht := Properties.isTilable_iff.mp h
  rw [Properties.of] at ht
  cases hd : c.properties.find? d with
  | none =>
    rw [hd] at ht
    cases ht
  | some tags => rfl

namespace Blocking

structure Inverted (b : Blocking) (c : Cluster) (outer inner : Dimension) : Prop where
  wantsOuter : b.wants c outer
  wantsInner : b.wants c inner
  chained : c.Chained outer inner
  shorter : inner.lineage.length < outer.lineage.length

noncomputable def above (b : Blocking) (c : Cluster) (d : Dimension) : List Dimension :=
  c.dimensions.filter fun a =>
    @decide (b.wants c a ∧ (a = d ∨ c.Chained a d)) (Classical.propDecidable _)

theorem mem_above {b : Blocking} {c : Cluster} {a d : Dimension} :
    a ∈ b.above c d ↔ a ∈ c.dimensions ∧ b.wants c a ∧ (a = d ∨ c.Chained a d) := by
  rw [above, List.mem_filter, @decide_eq_true_iff _ (Classical.propDecidable _)]

noncomputable def weight (b : Blocking) (c : Cluster) (d : Dimension) : Nat :=
  ((b.above c d).map (·.lineage.length)).foldl max 0

theorem weight_le_iff {b : Blocking} {c : Cluster} {d : Dimension} {n : Nat} :
    b.weight c d ≤ n ↔ ∀ a ∈ b.above c d, a.lineage.length ≤ n := by
  rw [weight, Queue.foldl_max_le_iff, List.forall_mem_map]
  exact and_iff_right (Nat.zero_le n)

theorem length_le_weight {b : Blocking} {c : Cluster} {a d : Dimension} (h : a ∈ b.above c d) :
    a.lineage.length ≤ b.weight c d :=
  weight_le_iff.mp le_rfl a h

theorem weight_mono {b : Blocking} {c : Cluster} {u v : Dimension} (h : Linked c.chains u v) :
    b.weight c u ≤ b.weight c v := by
  refine weight_le_iff.mpr fun a ha => length_le_weight ?_
  obtain ⟨hin, hw, hpath⟩ := mem_above.mp ha
  refine mem_above.mpr ⟨hin, hw, .inr ?_⟩
  rcases hpath with rfl | hpath
  · exact .single h
  · exact hpath.tail h

theorem mem_dimensions_of_wants {b : Blocking} {c : Cluster} (hc : c.Unblocked)
    (h : b.wants c d) : d ∈ c.dimensions :=
  hc.mem_of_isTilable (isTilable_of_wants h)

/-- Where no loop is blocked against a chain, the weight of a dimension to be blocked is the length
of its own lineage. -/
theorem weight_of_wants {b : Blocking} {c : Cluster} (hc : c.Unblocked)
    (hfree : ∀ outer inner, ¬b.Inverted c outer inner) (h : b.wants c d) :
    b.weight c d = d.lineage.length := by
  refine le_antisymm (weight_le_iff.mpr fun a ha => ?_) ?_
  · obtain ⟨-, hw, rfl | hpath⟩ := mem_above.mp ha
    · exact le_refl _
    · exact not_lt.mp fun hlt => hfree a d ⟨hw, h, hpath, hlt⟩
  · exact length_le_weight (mem_above.mpr ⟨mem_dimensions_of_wants hc h, h, .inl rfl⟩)

structure DeeperApart (p q : Dimension) : Prop where
  block : q.isBlock
  apart : p.root ≠ q.root
  longer : p.lineage.length < q.lineage.length

theorem linked_levelChains_cases {new present : List Dimension} {p q : Dimension}
    (h : Linked (levelChains new present) p q) : p ∈ new ∧ q ∈ present ∧ DeeperApart p q := by
  obtain ⟨chain, hchain, hp⟩ := h
  obtain ⟨other, hother, hchain⟩ := List.mem_flatMap.mp hchain
  obtain ⟨e, he, rfl⟩ := List.mem_map.mp hchain
  obtain ⟨he, hlt⟩ := List.mem_filter.mp he
  have hpair : (p, q) ∈ [(e, other)] := (List.mem_filter.mp hp).1
  cases List.mem_singleton.mp hpair
  obtain ⟨hpresent, hblock⟩ := List.mem_filter.mp hother
  have hapart := List.mem_takeWhile_imp he
  refine ⟨(List.takeWhile_sublist _).subset he, hpresent, hblock, fun hroot => ?_,
    of_decide_eq_true hlt⟩
  have hfree : p.root ∉ q.lineage := by
    simpa using List.all_eq_true.mp hapart p.root p.root_mem_lineage
  exact hfree (hroot ▸ q.root_mem_lineage)

/-- A new outermost block is put before a deeper one of another family. -/
theorem linked_levelChains {new present : List Dimension} {p q : Dimension} (hq : q ∈ present)
    (h : DeeperApart p q) : Linked (levelChains (p :: new) present) p q := by
  have hapart : ∀ e ∈ p.lineage, e ∉ q.lineage := fun e hp hq =>
    h.apart ((Dimension.root_of_mem_lineage hp).symm.trans (Dimension.root_of_mem_lineage hq))
  have hne : p ≠ q := fun he => h.apart (congrArg Dimension.root he)
  refine ⟨[p, q], List.mem_flatMap.mpr ⟨q, List.mem_filter.mpr ⟨hq, h.block⟩, ?_⟩, ?_⟩
  · refine List.mem_map.mpr ⟨p, List.mem_filter.mpr ⟨?_, decide_eq_true h.longer⟩, rfl⟩
    rw [List.takeWhile_cons_of_pos (by simpa using hapart)]
    exact List.mem_cons_self
  · rw [IntervalGroup.chainPairs_cons hne]
    exact List.mem_cons_self

def Deeper (p q : Dimension) : Prop :=
  p.isBlock ∧ q.isBlock ∧ p.lineage.length < q.lineage.length

structure Renames (b : Blocking) (c : Cluster) (before : List Dimension)
    (rename : Dimension → Dimension) : Prop where
  kept : ∀ d, ¬(d ∈ before ∧ b.wants c d) → rename d = d
  blocks : ∀ d ∈ before, b.wants c d → IsBlockOver d (rename d)

/-- The chains of a cluster in which all dimensions in the list that want it are blocked: those of
the cluster, along outermost blocks, and others that only lead to longer lineages. -/
structure Derived (b : Blocking) (c : Cluster) (before : List Dimension)
    (rename : Dimension → Dimension) (relations : List (List Dimension)) : Prop where
  renames : b.Renames c before rename
  image : ∀ u v, Linked c.chains u v → Linked relations (rename u) (rename v)
  source : ∀ p q, Linked relations p q →
    (∃ u v, Linked c.chains u v ∧ p = rename u ∧ q = rename v) ∨ Deeper p q

section
variable {b : Blocking} {c : Cluster} {before : List Dimension} {rename : Dimension → Dimension}
  {relations : List (List Dimension)} {d first : Dimension} {inner : List Dimension}

/-- What chains say about neighbours is all that counts. -/
theorem Derived.congr {relations' : List (List Dimension)}
    (h : b.Derived c before rename relations)
    (hsame : ∀ p q, Linked relations' p q ↔ Linked relations p q) :
    b.Derived c before rename relations' where
  renames := h.renames
  image u v huv := (hsame _ _).mpr (h.image u v huv)
  source p q hpq := h.source p q ((hsame p q).mp hpq)

theorem Derived.start : b.Derived c [] id c.chains where
  renames := ⟨fun _ _ => rfl, fun _ h => absurd h List.not_mem_nil⟩
  image _ _ h := h
  source p q h := .inl ⟨p, q, h, rfl, rfl⟩

/-- One more dimension is left as it is. -/
theorem Derived.skip (h : b.Derived c before rename relations) (hd : ¬b.wants c d) :
    b.Derived c (before ++ [d]) rename relations where
  renames :=
    { kept := fun e he => h.renames.kept e fun hin => he ⟨List.mem_append_left _ hin.1, hin.2⟩
      blocks := fun e he hw => by
        refine h.renames.blocks e ((List.mem_append.mp he).resolve_right fun hed => ?_) hw
        rw [List.mem_singleton.mp hed] at hw
        exact hd hw }
  image := h.image
  source := h.source

/-- Different dimensions have different outermost blocks. -/
theorem Renames.injective (h : b.Renames c before rename) {u v : Dimension}
    (hu : u.isBlock = false) (hv : v.isBlock = false) (he : rename u = rename v) : u = v := by
  by_cases hub : u ∈ before ∧ b.wants c u <;> by_cases hvb : v ∈ before ∧ b.wants c v
  · have hup := (h.blocks u hub.1 hub.2).2
    rw [he, (h.blocks v hvb.1 hvb.2).2] at hup
    exact (Option.some.inj hup).symm
  · have hblock := (h.blocks u hub.1 hub.2).1
    rw [he, h.kept v hvb, hv] at hblock
    cases hblock
  · have hblock := (h.blocks v hvb.1 hvb.2).1
    rw [← he, h.kept u hub, hu] at hblock
    cases hblock
  · rwa [h.kept u hub, h.kept v hvb] at he

/-- One more dimension is blocked. -/
theorem Renames.step (h : b.Renames c before rename) (hnot : d ∉ before) (hd : b.wants c d)
    (hfirst : IsBlockOver d first) :
    b.Renames c (before ++ [d]) (Function.update rename d first) := by
  constructor
  · intro e he
    have hne : e ≠ d := by
      rintro rfl
      exact he ⟨by simp, hd⟩
    rw [Function.update_of_ne hne]
    exact h.kept e fun hin => he ⟨List.mem_append_left _ hin.1, hin.2⟩
  · intro e he hw
    rcases List.mem_append.mp he with he | he
    · have hne : e ≠ d := fun hed => hnot (hed ▸ he)
      rw [Function.update_of_ne hne]
      exact h.blocks e he hw
    · obtain rfl := List.mem_singleton.mp he
      rwa [Function.update_self]

/-- In what has been renamed, the outermost block takes the part of the dimension. -/
theorem Renames.update_apply (h : b.Renames c before rename) (hnot : d ∉ before)
    (hplain : d.isBlock = false) (u : Dimension) :
    (if rename u = d then first else rename u) = Function.update rename d first u := by
  by_cases hud : u = d
  · subst hud
    rw [Function.update_self, h.kept u fun hin => hnot hin.1, if_pos rfl]
  · have hne : rename u ≠ d := by
      by_cases hu : u ∈ before ∧ b.wants c u
      · intro he
        have hblock := (h.blocks u hu.1 hu.2).1
        rw [he, hplain] at hblock
        cases hblock
      · rwa [h.kept u hu]
    rw [Function.update_of_ne hud, if_neg hne]

/-- Blocks over one another have longer and longer lineages. -/
theorem deeper_of_linked (h : (d :: inner).IsChain IsBlockOver) {p q : Dimension}
    (hpq : (p, q) ∈ IntervalGroup.chainPairs inner) : Deeper p q := by
  have hpair : ∀ {l : List Dimension}, l.IsChain IsBlockOver → (p, q) ∈ l.zip l.tail →
      IsBlockOver p q := by
    intro l hl
    induction l with
    | nil => simp
    | cons x l ih =>
      cases l with
      | nil => simp
      | cons y l =>
        obtain ⟨hxy, hl⟩ := List.isChain_cons_cons.mp hl
        intro hin
        rcases List.mem_cons.mp hin with he | hin
        · cases he
          exact hxy
        · exact ih hl hin
  have hover := hpair h.tail (List.mem_filter.mp hpq).1
  have hin := (IntervalGroup.precedes_of_mem_chainPairs hpq).left_mem
  exact ⟨(isBlock_of_linked h p hin).1, hover.1, hover.length_lineage ▸ Nat.lt_succ_self _⟩

/-- So have blocks that are kept next to those of their level. -/
theorem deeper_of_levelChains {new present : List Dimension} (hnew : ∀ e ∈ new, e.isBlock)
    {p q : Dimension} (h : Linked (levelChains new present) p q) : Deeper p q := by
  obtain ⟨hp, -, hranks⟩ := linked_levelChains_cases h
  exact ⟨hnew p hp, hranks.block, hranks.longer⟩

theorem plain_of_wants (hc : c.Unblocked) (h : b.wants c d) : d.isBlock = false :=
  hc.plain d (.inl (mem_dimensions_of_wants hc h))

/-- Blocking one more dimension turns the chains to its outermost block, and what it adds leads from
blocks to deeper ones. -/
theorem Derived.step (hc : c.Unblocked) (h : b.Derived c before rename relations)
    (hnot : d ∉ before) (hd : b.wants c d) (hchain : (d :: first :: inner).IsChain IsBlockOver)
    (present : List Dimension) :
    b.Derived c (before ++ [d]) (Function.update rename d first)
      (relations.map (·.map fun e => if e = d then first else e) ++
        (first :: inner) :: levelChains (first :: inner) present) := by
  have hplain := plain_of_wants hc hd
  have hrenames := h.renames.step hnot hd (List.isChain_cons_cons.mp hchain).1
  refine ⟨hrenames, fun u v huv => ?_, fun p q hpq => ?_⟩
  · have hmoved : ∀ u, (if rename u = d then first else rename u) =
        Function.update rename d first u := h.renames.update_apply hnot hplain
    have hne : Function.update rename d first u ≠ Function.update rename d first v := by
      obtain ⟨hu, hv⟩ := hc.plain_of_linked huv
      intro he
      obtain ⟨chain, -, hp⟩ := huv
      exact of_decide_eq_true (List.mem_filter.mp hp).2 (hrenames.injective hu hv he)
    rw [← hmoved u, ← hmoved v] at hne ⊢
    exact linked_append.mpr (.inl (linked_map (h.image u v huv) hne))
  · rcases linked_append.mp hpq with hpq | hpq
    · obtain ⟨p, q, hold, rfl, rfl⟩ := exists_of_linked_map hpq
      rcases h.source p q hold with ⟨u, v, huv, rfl, rfl⟩ | hdeep
      · exact .inl ⟨u, v, huv, h.renames.update_apply hnot hplain u,
          h.renames.update_apply hnot hplain v⟩
      · have hkept : ∀ e : Dimension, e.isBlock → (if e = d then first else e) = e := by
          intro e he
          refine if_neg fun hed => ?_
          rw [hed, hplain] at he
          cases he
        rw [hkept p hdeep.1, hkept q hdeep.2.1]
        exact .inr hdeep
    · rcases linked_cons.mp hpq with hpq | hpq
      · exact .inr (deeper_of_linked hchain hpq)
      · refine .inr (deeper_of_levelChains (fun e he => ?_) hpq)
        exact (isBlock_of_linked hchain e he).1

/-- A dimension ranks by its weight; a block, by the lineage that it was made over. Dimensions of
one rank come in the order given. -/
noncomputable def rank (b : Blocking) (c : Cluster) (order : List Dimension) (d : Dimension) :
    Nat ×ₗ Nat :=
  match d with
  | .block _ parent _ _ _ => toLex (parent.lineage.length, order.idxOf parent)
  | d => toLex (b.weight c d, order.idxOf d)

theorem rank_of_plain {order : List Dimension} (h : d.isBlock = false) :
    b.rank c order d = toLex (b.weight c d, order.idxOf d) := by
  cases d with
  | block name parent min max step => cases h
  | basic name => rfl
  | sub name parent region => rfl

theorem rank_of_block {order : List Dimension} {outer : Dimension} (h : IsBlockOver outer d) :
    b.rank c order d = toLex (outer.lineage.length, order.idxOf outer) := by
  obtain ⟨hblock, hparent⟩ := h
  cases d with
  | block name parent min max step =>
    cases hparent
    rfl
  | basic name => cases hblock
  | sub name parent region => cases hblock

theorem exists_isBlockOver (h : d.isBlock) : ∃ outer, IsBlockOver outer d := by
  cases d with
  | block name parent min max step => exact ⟨parent, rfl, rfl⟩
  | basic name => cases h
  | sub name parent region => cases h

theorem rank_lt_of_deeper {order : List Dimension} {p q : Dimension} (h : Deeper p q) :
    b.rank c order p < b.rank c order q := by
  obtain ⟨hp, hq, hlt⟩ := h
  obtain ⟨outer, hp⟩ := exists_isBlockOver hp
  obtain ⟨outer', hq⟩ := exists_isBlockOver hq
  rw [rank_of_block hp, rank_of_block hq]
  rw [hp.length_lineage, hq.length_lineage] at hlt
  exact Prod.Lex.toLex_lt_toLex.mpr (.inl (Nat.lt_of_succ_lt_succ hlt))

/-- An outermost block ranks as the dimension that it was made over. -/
theorem Renames.rank (h : b.Renames c before rename) (hc : c.Unblocked)
    (hfree : ∀ outer inner, ¬b.Inverted c outer inner) {order : List Dimension} {u : Dimension}
    (hu : u.isBlock = false) :
    b.rank c order (rename u) = toLex (b.weight c u, order.idxOf u) := by
  by_cases hin : u ∈ before ∧ b.wants c u
  · rw [rank_of_block (h.blocks u hin.1 hin.2), weight_of_wants hc hfree hin.2]
  · rw [h.kept u hin, rank_of_plain hu]

/-- Where no loop is blocked against a chain, the chains never form a cycle. -/
theorem Derived.not_cyclic (h : b.Derived c before rename relations) (hc : c.Unblocked)
    (hfree : ∀ outer inner, ¬b.Inverted c outer inner) {intervals : List Interval}
    (hbuild : IntervalGroup.build intervals relations = .error e) : ¬e.Is .cyclicRelations := by
  obtain ⟨order, hnodup, horder, -⟩ := IntervalGroup.build_order hc.settled
  refine IntervalGroup.not_cyclic_of_rank (b.rank c order) (fun p q hpq => ?_) hbuild
  rcases h.source p q hpq with ⟨u, v, huv, rfl, rfl⟩ | hdeep
  · obtain ⟨hu, hv⟩ := hc.plain_of_linked huv
    rw [h.renames.rank hc hfree hu, h.renames.rank hc hfree hv, Prod.Lex.toLex_lt_toLex]
    have hlt := (horder u v (.single huv)).idxOf_lt hnodup
    exact (weight_mono huv).lt_or_eq.imp_right fun he => ⟨he, hlt⟩
  · exact rank_lt_of_deeper hdeep

end

end Blocking

end LoopNest
