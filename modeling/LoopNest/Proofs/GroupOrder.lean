import LoopNest.IntervalGroup
import LoopNest.Proofs.LinearExtensions
import LoopNest.Proofs.Maps
import LoopNest.Proofs.Returns

namespace LoopNest

theorem firstRepeated?_eq_none {α : Type} [DecidableEq α] {seen l : List α} :
    firstRepeated? seen l = none ↔ l.Nodup ∧ ∀ a ∈ l, a ∉ seen := by
  induction l generalizing seen with
  | nil => simp [firstRepeated?]
  | cons a l ih =>
    rw [firstRepeated?]
    by_cases ha : a ∈ seen
    · simp [ha]
    · simp only [ha, if_false, ih, List.nodup_cons, List.mem_cons, not_or]
      constructor
      · rintro ⟨hl, hfree⟩
        refine ⟨⟨fun h => (hfree a h).1 rfl, hl⟩, ?_⟩
        rintro b (rfl | hb)
        · exact ha
        · exact (hfree b hb).2
      · rintro ⟨⟨hal, hl⟩, hfree⟩
        exact ⟨hl, fun b hb => ⟨fun he => hal (he ▸ hb), hfree b (.inr hb)⟩⟩

theorem nodup_eraseDups {α : Type} [DecidableEq α] (l : List α) : l.eraseDups.Nodup := by
  match l with
  | [] => exact List.nodup_nil
  | a :: l =>
    rw [List.eraseDups_cons]
    exact List.nodup_cons.mpr ⟨by simp [List.mem_eraseDups], nodup_eraseDups _⟩
termination_by l.length
decreasing_by
  exact Nat.lt_succ_of_le (List.length_filter_le _ l)

theorem eraseDups_of_nodup {α : Type} [DecidableEq α] {l : List α} (h : l.Nodup) :
    l.eraseDups = l := by
  induction l with
  | nil => rfl
  | cons a l ih =>
    obtain ⟨ha, hl⟩ := List.nodup_cons.mp h
    rw [List.eraseDups_cons, List.filter_eq_self.mpr fun b hb => ?_, ih hl]
    have hne : b ≠ a := fun he => ha (he ▸ hb)
    simpa using hne

theorem eraseDups_append_self {α : Type} [DecidableEq α] {l : List α} (h : l.Nodup) :
    (l ++ l).eraseDups = l := by
  rw [List.eraseDups_append, eraseDups_of_nodup h, List.removeAll,
    List.filter_eq_nil_iff.mpr (by simp)]
  exact List.append_nil _

namespace IntervalGroup

variable {intervals : List Interval} {relations : List (List Dimension)} {g : IntervalGroup}

theorem find?_dim {d : Dimension} {i : Interval} (hnd : (intervals.map Interval.dim).Nodup)
    (hi : i ∈ intervals) (hd : i.dim = d) : intervals.find? (·.dim = d) = some i := by
  induction intervals with
  | nil => cases hi
  | cons j intervals ih =>
    rw [List.map_cons, List.nodup_cons] at hnd
    rcases List.mem_cons.mp hi with rfl | hi
    · simp [hd]
    · have hne : j.dim ≠ d := by
        rintro rfl
        exact hnd.1 (hd ▸ List.mem_map_of_mem hi)
      simpa [List.find?_cons, hne] using ih hnd.2 hi

theorem dim_of_find? {d : Dimension} {i : Interval} (h : intervals.find? (·.dim = d) = some i) :
    i.dim = d := by
  simpa using List.find?_some h

theorem dim_of_found {groups : List IntervalGroup} {d : Dimension} {i : Interval}
    (hi : i ∈ groups.filterMap (·.find? d)) : i.dim = d := by
  obtain ⟨g, -, hg⟩ := List.mem_filterMap.mp hi
  exact dim_of_find? hg

def pick (intervals : List Interval) (order : List Dimension) : List Interval :=
  order.filterMap fun d => intervals.find? (·.dim = d)

theorem mem_pick {order : List Dimension} {i : Interval} (h : i ∈ pick intervals order) :
    i ∈ intervals := by
  obtain ⟨d, -, hd⟩ := List.mem_filterMap.mp h
  exact List.mem_of_find?_eq_some hd

theorem pick_map_dim (intervals : List Interval) (order : List Dimension) :
    (pick intervals order).map Interval.dim =
      order.filter (· ∈ intervals.map Interval.dim) := by
  induction order with
  | nil => rfl
  | cons d order ih =>
    rw [pick, List.filterMap_cons]
    cases hd : intervals.find? (·.dim = d) with
    | none =>
      have hnot : d ∉ intervals.map Interval.dim := by
        intro hin
        obtain ⟨i, hi, hid⟩ := List.mem_map.mp hin
        simpa [hid] using List.find?_eq_none.mp hd i hi
      rw [List.filter_cons_of_neg (by simpa using hnot)]
      exact ih
    | some i =>
      have hi := dim_of_find? hd
      have hin : d ∈ intervals.map Interval.dim :=
        hi ▸ List.mem_map_of_mem (List.mem_of_find?_eq_some hd)
      rw [List.filter_cons_of_pos (by simpa using hin), List.map_cons, hi]
      exact congrArg _ ih

/-- Intervals are what their dimensions pick. -/
theorem pick_of_subset {some : List Interval} (hnd : (intervals.map Interval.dim).Nodup)
    (hsub : ∀ i ∈ some, i ∈ intervals) : pick intervals (some.map Interval.dim) = some := by
  induction some with
  | nil => rfl
  | cons i some ih =>
    rw [List.forall_mem_cons] at hsub
    rw [pick, List.map_cons, List.filterMap_cons, find?_dim hnd hsub.1 rfl]
    exact congrArg _ (ih hsub.2)

theorem eq_of_map_dim {some some' : List Interval} (hnd : (intervals.map Interval.dim).Nodup)
    (hsub : ∀ i ∈ some, i ∈ intervals) (hsub' : ∀ i ∈ some', i ∈ intervals)
    (h : some.map Interval.dim = some'.map Interval.dim) : some = some' := by
  rw [← pick_of_subset hnd hsub, h, pick_of_subset hnd hsub']

theorem mem_absentDimensions {present : List Dimension} {d : Dimension} :
    d ∈ absentDimensions present relations ↔
      d ∉ present ∧ ∃ chain ∈ relations, d ∈ chain := by
  simp only [absentDimensions, List.mem_eraseDups, List.mem_filter, List.mem_flatten,
    decide_eq_true_eq]
  exact and_comm

theorem mem_absent_append {present : List Dimension} {d : Dimension} :
    d ∈ absentDimensions present relations ++ present ↔
      d ∈ present ∨ ∃ chain ∈ relations, d ∈ chain := by
  rw [List.mem_append, mem_absentDimensions]
  by_cases hd : d ∈ present <;> simp [hd]

theorem absentDimensions_nodup (present : List Dimension) (relations : List (List Dimension)) :
    (absentDimensions present relations).Nodup := nodup_eraseDups _

theorem absent_append_nodup {present : List Dimension} (hnd : present.Nodup) :
    (absentDimensions present relations ++ present).Nodup := by
  refine List.nodup_append.mpr ⟨absentDimensions_nodup _ _, hnd, fun a ha b hb he => ?_⟩
  exact (mem_absentDimensions.mp ha).1 (he ▸ hb)

/-- What a group is built from: intervals over distinct dimensions, the chains that say something,
and an order of all dimensions by them. -/
theorem build_cases (h : build intervals relations = .ok g) :
    (intervals.map Interval.dim).Nodup ∧
    g.relations = .ofList (relations.filter (1 < ·.length)) ∧
    ∃ order, linearExtension?
        (absentDimensions (intervals.map Interval.dim) g.relations.toList ++
          intervals.map Interval.dim)
        (g.relations.toList.flatMap chainPairs) = some order ∧
      g.intervals = pick intervals order := by
  unfold build at h
  dsimp only at h
  split at h
  · cases h
  rename_i hrep
  refine ⟨(firstRepeated?_eq_none.mp hrep).1, ?_⟩
  obtain ⟨out, ho, h⟩ := Returns.of_bind (returns_ok h)
  rw [Returns.of_pure h]
  refine ⟨rfl, ?_⟩
  unfold arrange at ho
  dsimp only at ho
  split at ho
  · rename_i order horder
    cases ho
    exact ⟨order, horder, rfl⟩
  · cases ho

/-- A group has the dimensions of its intervals in the order that the chains ask for. -/
theorem build_dimensions {order : List Dimension}
    (hi : g.intervals = pick intervals order) :
    g.dimensions = order.filter (· ∈ intervals.map Interval.dim) := by
  rw [dimensions, hi, pick_map_dim]

theorem build_perm (h : build intervals relations = .ok g) : g.intervals.Perm intervals := by
  obtain ⟨hnd, -, order, ho, hi⟩ := build_cases h
  have hperm : order.Perm _ := linearExtension?_perm ho
  have hdims : (intervals.map Interval.dim).Perm
      (order.filter (· ∈ intervals.map Interval.dim)) := by
    have hf := hperm.symm.filter (· ∈ intervals.map Interval.dim)
    rw [List.filter_append] at hf
    have habsent : (absentDimensions (intervals.map Interval.dim) g.relations.toList).filter
        (· ∈ intervals.map Interval.dim) = [] := by
      refine List.filter_eq_nil_iff.mpr fun d hd => ?_
      simpa using (mem_absentDimensions.mp hd).1
    rw [habsent, List.nil_append] at hf
    refine .trans (.of_eq ?_) hf
    exact (List.filter_eq_self.mpr fun d hd => by simpa using hd).symm
  have hnd' : (g.intervals.map Interval.dim).Nodup := by
    rw [hi, pick_map_dim]
    exact hdims.nodup_iff.mp hnd
  refine (List.perm_ext_iff_of_nodup (List.Nodup.of_map _ hnd') (List.Nodup.of_map _ hnd)).mpr
    fun i => ⟨fun h => mem_pick (hi ▸ h), fun h => ?_⟩
  have hd : i.dim ∈ order := by
    have hin := hdims.mem_iff.mp (List.mem_map_of_mem h)
    exact (List.mem_filter.mp hin).1
  rw [hi]
  exact List.mem_filterMap.mpr ⟨i.dim, hd, find?_dim hnd h rfl⟩

theorem build_dimensions_nodup (h : build intervals relations = .ok g) : g.dimensions.Nodup :=
  ((build_perm h).map Interval.dim).nodup_iff.mpr (build_cases h).1

theorem chainPairs_cons {a b : Dimension} {chain : List Dimension} (hne : a ≠ b) :
    chainPairs (a :: b :: chain) = (a, b) :: chainPairs (b :: chain) := by
  simp [chainPairs, hne]

/-- Elements of a chain stand in its order when its neighbours do. -/
theorem precedes_of_chain {order chain : List Dimension} {a b : Dimension} (hnd : order.Nodup)
    (hchain : chain.Nodup) (hpairs : ∀ p ∈ chainPairs chain, Precedes order p.1 p.2)
    (h : Precedes chain a b) : Precedes order a b := by
  induction chain generalizing a with
  | nil => cases h
  | cons c chain ih =>
    obtain ⟨hc, hrest⟩ := List.nodup_cons.mp hchain
    cases chain with
    | nil =>
      have hb := h.right_mem
      have ha := h.left_mem
      rw [List.mem_singleton] at ha hb
      exact absurd (ha.trans hb.symm) (h.ne hchain)
    | cons d chain =>
      have hcd : c ≠ d := fun he => hc (he ▸ List.mem_cons_self)
      rw [chainPairs_cons hcd, List.forall_mem_cons] at hpairs
      rcases Precedes.cons_iff.mp h with ⟨rfl, hb⟩ | h
      · by_cases hbd : b = d
        · exact hbd ▸ hpairs.1
        · have hdb : Precedes (d :: chain) d b :=
            Precedes.cons_iff.mpr (.inl ⟨rfl, (List.mem_cons.mp hb).resolve_left hbd⟩)
          exact hpairs.1.trans hnd (ih hrest hpairs.2 hdb)
      · exact ih hrest hpairs.2 h

/-- A group keeps the chains that say something. -/
theorem build_keeps_chain {chain : List Dimension} {a b : Dimension}
    (h : build intervals relations = .ok g) (hin : chain ∈ relations) (hab : Precedes chain a b) :
    chain ∈ g.relations.toList := by
  have hlong : 1 < chain.length := List.Sublist.length_le hab
  rw [(build_cases h).2.1, SortedSet.mem_ofList]
  exact List.mem_filter.mpr ⟨hin, by simpa using hlong⟩

/-- The dimensions of a chain, as far as they have intervals, stand in the order of the chain. -/
theorem build_precedes {chain : List Dimension} {a b : Dimension}
    (h : build intervals relations = .ok g) (hin : chain ∈ relations) (hchain : chain.Nodup)
    (ha : a ∈ g.dimensions) (hb : b ∈ g.dimensions) (hab : Precedes chain a b) :
    Precedes g.dimensions a b := by
  obtain ⟨hnd, -, order, ho, hi⟩ := build_cases h
  have hdims := build_dimensions hi
  have hmem := build_keeps_chain h hin hab
  have hnodup : order.Nodup :=
    (linearExtension?_perm ho).nodup_iff.mpr (absent_append_nodup hnd)
  rw [hdims] at ha hb ⊢
  refine Precedes.filter ?_ (List.mem_filter.mp ha).2 (List.mem_filter.mp hb).2
  refine precedes_of_chain hnodup hchain (fun p hp => ?_) hab
  refine linearExtension?_precedes ho (List.mem_flatMap.mpr ⟨chain, hmem, hp⟩) ?_
  have hpc : p.2 ∈ chain :=
    List.mem_of_mem_tail (List.of_mem_zip (List.mem_filter.mp hp).1).2
  rw [List.mem_append, mem_absentDimensions]
  by_cases hpresent : p.2 ∈ intervals.map Interval.dim
  · exact .inr hpresent
  · exact .inl ⟨hpresent, chain, hmem, hpc⟩

/-- The place of a dimension among the loops. -/
theorem indexOf?_of_split {g : IntervalGroup} {front after : List Dimension} {d : Dimension}
    (h : g.dimensions = front ++ d :: after) (hfront : d ∉ front) :
    g.indexOf? d = some front.length := by
  have hnone : front.findIdx? (· = d) = none :=
    List.findIdx?_eq_none_iff.mpr fun e he => decide_eq_false fun hed => hfront (hed ▸ he)
  have hmap : g.dimensions.findIdx? (· = d) = g.indexOf? d := List.findIdx?_map
  rw [← hmap, h, List.findIdx?_append, hnone, List.findIdx?_cons]
  simp

/-- A chain over all dimensions fixes the order. -/
theorem build_total (h : build intervals relations = .ok g)
    (hin : intervals.map Interval.dim ∈ relations) : g.intervals = intervals := by
  have hnd := (build_cases h).1
  have hperm := (build_perm h).map Interval.dim
  refine eq_of_map_dim hnd (fun i hi => (build_perm h).mem_iff.mp hi) (fun i hi => hi) ?_
  refine Precedes.eq_of_perm hnd hperm fun a b hab => ?_
  exact build_precedes h hin hnd (hperm.mem_iff.mpr hab.left_mem)
    (hperm.mem_iff.mpr hab.right_mem) hab

/-- Among dimensions that are absent or present, those that are not absent are the present ones. -/
theorem filter_not_absent {present : List Dimension} {relations : List (List Dimension)}
    {l : List Dimension} (hl : ∀ d ∈ l, d ∈ absentDimensions present relations ++ present) :
    l.filter (· ∉ absentDimensions present relations) = l.filter (· ∈ present) := by
  refine List.filter_congr fun d hd => ?_
  have hin := hl d hd
  have habsent : d ∈ absentDimensions present relations ↔ _ := mem_absentDimensions
  rw [List.mem_append] at hin
  by_cases hp : d ∈ present
  · simpa [hp] using fun h => (habsent.mp h).1 hp
  · simpa [hp] using hin.resolve_right hp

/-- Intervals that already stand in an order that suits the chains keep their places. -/
theorem build_suited (h : build intervals relations = .ok g) (suits : List Dimension)
    (hperm : suits.Perm (absentDimensions (intervals.map Interval.dim) g.relations.toList ++
      intervals.map Interval.dim))
    (hlisted : suits.filter (· ∈ intervals.map Interval.dim) = intervals.map Interval.dim)
    (hsuits : ∀ chain ∈ g.relations.toList, ∀ p ∈ chainPairs chain, Precedes suits p.1 p.2) :
    g.intervals = intervals := by
  obtain ⟨hnd, -, order, ho, hi⟩ := build_cases h
  have hnot := filter_not_absent fun d hd => hperm.mem_iff.mp hd
  obtain ⟨order', ho', hkeep⟩ := linearExtension?_again
    (hperm.nodup_iff.mpr (absent_append_nodup hnd)) (absentDimensions_nodup _ _)
    (fun d hd => hperm.mem_iff.mpr (List.mem_append_left _ hd)) fun p hp _ => by
      obtain ⟨chain, hchain, hp⟩ := List.mem_flatMap.mp hp
      exact hsuits chain hchain p hp
  rw [hnot, hlisted] at ho' hkeep
  obtain rfl := Option.some.inj (ho.symm.trans ho')
  rw [hi]
  refine eq_of_map_dim hnd (fun i hi => mem_pick hi) (fun i hi => hi) ?_
  rw [pick_map_dim, ← filter_not_absent fun d hd => (linearExtension?_perm ho).mem_iff.mp hd, hkeep]

/-- Neighbours in a chain stand in its order. -/
theorem precedes_of_mem_chainPairs {chain : List Dimension} {p : Dimension × Dimension}
    (h : p ∈ chainPairs chain) : Precedes chain p.1 p.2 := by
  have hzip : p ∈ chain.zip chain.tail := (List.mem_filter.mp h).1
  clear h
  induction chain with
  | nil => cases hzip
  | cons a chain ih =>
    cases chain with
    | nil => cases hzip
    | cons b chain =>
      rcases List.mem_cons.mp hzip with rfl | hzip
      · exact Precedes.cons_iff.mpr (.inl ⟨rfl, List.mem_cons_self⟩)
      · exact Precedes.cons_iff.mpr (.inr (ih hzip))

/-- The neighbours along a renamed chain are renamed neighbours. -/
theorem exists_of_mem_chainPairs_map {chain : List Dimension} {f : Dimension → Dimension}
    {p : Dimension × Dimension} (h : p ∈ chainPairs (chain.map f)) :
    ∃ q ∈ chainPairs chain, p = (f q.1, f q.2) := by
  obtain ⟨hzip, hne⟩ := List.mem_filter.mp h
  rw [← List.map_tail, List.zip_map, List.mem_map] at hzip
  obtain ⟨q, hq, rfl⟩ := hzip
  have hne : q.1 ≠ q.2 := fun he => (of_decide_eq_true hne) (congrArg f he)
  exact ⟨q, List.mem_filter.mpr ⟨hq, decide_eq_true hne⟩, rfl⟩

/-- A group can be built from intervals that already stand in the order of the chains. -/
theorem exists_build (hnd : (intervals.map Interval.dim).Nodup)
    (hsuits : ∀ chain ∈ relations, chain.Sublist (intervals.map Interval.dim)) :
    ∃ g, build intervals relations = .ok g := by
  unfold build arrange
  dsimp only
  rw [firstRepeated?_eq_none.mpr ⟨hnd, by simp⟩]
  have hkept : ∀ chain ∈ (SortedSet.ofList (relations.filter (1 < ·.length))).toList,
      chain.Sublist (intervals.map Interval.dim) := by
    intro chain hchain
    rw [SortedSet.mem_ofList] at hchain
    exact hsuits chain (List.mem_filter.mp hchain).1
  generalize SortedSet.ofList (relations.filter (1 < ·.length)) = chains at hkept ⊢
  have habsent : absentDimensions (intervals.map Interval.dim) chains.toList = [] := by
    refine List.eq_nil_iff_forall_not_mem.mpr fun d hd => ?_
    obtain ⟨hnot, chain, hchain, hin⟩ := mem_absentDimensions.mp hd
    exact hnot ((hkept chain hchain).subset hin)
  have hpairs : ∀ p ∈ chains.toList.flatMap chainPairs, p.2 ∈ intervals.map Interval.dim →
      Precedes (intervals.map Interval.dim) p.1 p.2 := by
    intro p hp _
    obtain ⟨chain, hchain, hp⟩ := List.mem_flatMap.mp hp
    exact List.Sublist.trans (precedes_of_mem_chainPairs hp) (hkept chain hchain)
  obtain ⟨order, horder⟩ := exists_linearExtension? hnd (.refl _) hpairs
  rw [habsent, List.nil_append, horder]
  exact ⟨_, rfl⟩

/-- Combining two intervals stays over the dimension of the first. -/
theorem combine_dim {how : Combination} {i j k : Interval} (h : how.combine i j = .ok k) :
    k.dim = i.dim := by
  cases how with
  | intersection =>
    obtain ⟨-, -, h⟩ := Returns.of_bind (returns_ok h)
    split at h
    · obtain ⟨lower, -, h⟩ := Returns.of_bind h
      obtain ⟨upper, -, h⟩ := Returns.of_bind h
      rw [Returns.of_pure h]
      split <;> rfl
    · rw [Returns.of_pure h]
      rfl
  | union =>
    obtain ⟨checked, hsame, h⟩ := Returns.of_bind (returns_ok h)
    have hdim : i.dim = j.dim := by
      unfold Interval.checkSameDim at hsame
      split at hsame
      · assumption
      · cases hsame
    split at h
    · obtain ⟨lower, -, h⟩ := Returns.of_bind h
      obtain ⟨upper, -, h⟩ := Returns.of_bind h
      rw [Returns.of_pure h]
      rfl
    · rw [Returns.of_pure h]
    · rw [Returns.of_pure h]
      exact hdim.symm

theorem combineOver_dim {how : Combination} {groups : List IntervalGroup} {d : Dimension}
    {i : Interval} (h : combineOver how groups d = .ok (some i)) : i.dim = d := by
  unfold combineOver at h
  split at h
  · cases h
  · rename_i first rest hfound
    obtain ⟨k, hk, he⟩ := returns_map (returns_ok h)
    cases he
    have hfirst : first.dim = d := dim_of_found (hfound ▸ List.mem_cons_self)
    exact returns_foldlM (P := fun _ (k : Interval) => k.dim = d) hk hfirst
      fun _ _ _ _ _ hacc hnext => (combine_dim hnext).trans hacc

/-- A dimension that one of the groups has is combined into an interval over it. -/
theorem combineOver_present {how : Combination} {groups : List IntervalGroup} {d : Dimension}
    {found : Option Interval} (h : combineOver how groups d = .ok found) {g : IntervalGroup}
    (hg : g ∈ groups) (hd : d ∈ g.dimensions) : ∃ i, found = some i ∧ i.dim = d := by
  cases found with
  | some i => exact ⟨i, rfl, combineOver_dim h⟩
  | none =>
    unfold combineOver at h
    split at h
    · rename_i hnone
      obtain ⟨i, hi, hid⟩ := List.mem_map.mp hd
      have hmissing : g.find? d = none := List.filterMap_eq_nil_iff.mp hnone g hg
      exact absurd (decide_eq_true hid) (List.find?_eq_none.mp hmissing i hi)
    · obtain ⟨i, -, hnone⟩ := returns_map (returns_ok h)
      cases hnone

/-- What a combination is built from: one interval over every dimension that a group has, in the
order in which the dimensions first occur. -/
theorem generate_cases {how : Combination} {groups : List IntervalGroup} {g : IntervalGroup}
    (h : generate how groups = .ok g) :
    ∃ intervals, intervals.map Interval.dim = (groups.flatMap dimensions).eraseDups ∧
      build intervals (groups.flatMap (·.relations.toList)) = .ok g := by
  obtain ⟨found, hfound, h⟩ := Returns.of_bind (returns_ok h)
  refine ⟨_, ?_, h⟩
  have hsome : ∀ d ∈ (groups.flatMap dimensions).eraseDups, ∃ g ∈ groups, d ∈ g.dimensions :=
    fun d hd => List.mem_flatMap.mp (List.mem_eraseDups.mp hd)
  replace hfound := returns_mapM (returns_ok hfound)
  clear h
  generalize (groups.flatMap dimensions).eraseDups = dims at hsome hfound
  induction hfound with
  | nil => rfl
  | cons hd _ ih =>
    obtain ⟨⟨g', hg, hin⟩, hrest⟩ := List.forall_mem_cons.mp hsome
    obtain ⟨i, rfl, rfl⟩ := combineOver_present hd hg hin
    exact congrArg (i.dim :: ·) (ih hrest)

theorem union_self {i k : Interval} (h : i.union i = .ok k) : k = i := by
  obtain ⟨-, -, h⟩ := Returns.of_bind (returns_ok h)
  cases i with
  | null dim => exact Returns.of_pure h
  | closed dim lower upper =>
    obtain ⟨low, hlow, h⟩ := Returns.of_bind h
    obtain ⟨high, hhigh, h⟩ := Returns.of_bind h
    obtain ⟨_, -, hlow⟩ := Returns.of_bind (returns_ok hlow)
    obtain ⟨_, -, hhigh⟩ := Returns.of_bind (returns_ok hhigh)
    rw [Returns.of_pure h, Returns.of_pure hlow, Returns.of_pure hhigh, ite_self, ite_self]
    rfl

/-- The union of groups with the same intervals is built from these. -/
theorem generate_union_same {g' k : IntervalGroup} (hnd : g.dimensions.Nodup)
    (hsame : g'.intervals = g.intervals) (h : generate .union [g, g'] = .ok k) :
    build g.intervals (g.relations.toList ++ g'.relations.toList) = .ok k := by
  obtain ⟨found, hfound, h⟩ := Returns.of_bind (returns_ok h)
  have hdims : ([g, g'].flatMap dimensions).eraseDups = g.intervals.map Interval.dim := by
    rw [List.flatMap_cons, List.flatMap_singleton, dimensions, dimensions, hsame]
    exact eraseDups_append_self hnd
  rw [hdims] at hfound
  have hall := List.forall₂_map_left_iff.mp (returns_mapM (returns_ok hfound))
  have hfound : List.Forall₂ (· = ·) found (g.intervals.map some) := by
    refine List.forall₂_map_right_iff.mpr ?_
    refine (((List.forall₂_and_left _ _).mpr ⟨fun i hi => hi, hall⟩).imp ?_).flip
    intro i found ⟨hi, hcombined⟩
    have hone : g.find? i.dim = some i := find?_dim hnd hi rfl
    have htwo : g'.find? i.dim = some i := by rw [find?, hsame]; exact hone
    have hboth : [g, g'].filterMap (·.find? i.dim) = [i, i] := by
      simp only [List.filterMap_cons, hone, htwo, List.filterMap_nil]
    rw [combineOver, hboth] at hcombined
    obtain ⟨k, hk, rfl⟩ := returns_map hcombined
    obtain ⟨k', hunion, hk⟩ := Returns.of_bind hk
    rw [Returns.of_pure hk, union_self hunion]
    rfl
  rw [List.forall₂_eq_eq_eq] at hfound
  have hkept : found.filterMap id = g.intervals := by simp [hfound]
  rw [hkept, List.flatMap_cons, List.flatMap_singleton] at h
  exact h

/-- A combination has no dimensions that the groups do not have. -/
theorem generate_dimensions {how : Combination} {groups : List IntervalGroup} {g : IntervalGroup}
    (h : generate how groups = .ok g) : ∀ d ∈ g.dimensions, ∃ g' ∈ groups, d ∈ g'.dimensions := by
  obtain ⟨intervals, hdims, h⟩ := generate_cases h
  intro d hd
  have hin := ((build_perm h).map Interval.dim).mem_iff.mp hd
  rw [hdims] at hin
  exact List.mem_flatMap.mp (List.mem_eraseDups.mp hin)

/-- Building the group from its own intervals and chains gives the group. -/
def Settled (g : IntervalGroup) : Prop := build g.intervals g.relations.toList = .ok g

theorem settled_empty : empty.Settled := rfl

/-- A built group has no chain that is too short to order anything. -/
theorem build_relations (h : build intervals relations = .ok g) :
    SortedSet.ofList (g.relations.toList.filter (1 < ·.length)) = g.relations := by
  obtain ⟨-, hrel, -⟩ := build_cases h
  rw [List.filter_eq_self.mpr, SortedSet.ofList_toList]
  intro chain hchain
  rw [hrel, SortedSet.mem_ofList] at hchain
  exact (List.mem_filter.mp hchain).2

theorem absentDimensions_congr {present present' : List Dimension}
    (h : ∀ d, d ∈ present ↔ d ∈ present') (relations : List (List Dimension)) :
    absentDimensions present relations = absentDimensions present' relations := by
  simp only [absentDimensions, h]

theorem build_settled (h : build intervals relations = .ok g) : g.Settled := by
  obtain ⟨hnd, -, order, ho, hi⟩ := build_cases h
  have hpresent : ∀ d, d ∈ g.intervals.map Interval.dim ↔ d ∈ intervals.map Interval.dim :=
    fun d => ((build_perm h).map Interval.dim).mem_iff
  have hnodup := build_dimensions_nodup h
  have horder := linearExtension?_perm ho
  -- the order found before suits the chains, and the intervals are listed in it
  have hlisted : order.filter (· ∉ absentDimensions (intervals.map Interval.dim)
      g.relations.toList) = g.intervals.map Interval.dim := by
    rw [filter_not_absent fun d hd => horder.mem_iff.mp hd, ← build_dimensions hi, dimensions]
  obtain ⟨order', ho', hkeep⟩ := linearExtension?_again
    (horder.nodup_iff.mpr (absent_append_nodup hnd)) (absentDimensions_nodup _ _)
    (fun d hd => horder.mem_iff.mpr (List.mem_append_left _ hd))
    (fun p hp hin => linearExtension?_precedes ho hp (horder.mem_iff.mp hin))
  rw [hlisted] at ho' hkeep
  rw [← absentDimensions_congr hpresent] at ho' hkeep
  have hsame : pick g.intervals order' = g.intervals := by
    refine eq_of_map_dim hnodup (fun i hi => mem_pick hi) (fun i hi => hi) ?_
    rw [pick_map_dim, ← filter_not_absent fun d hd => (linearExtension?_perm ho').mem_iff.mp hd,
      hkeep]
  have harrange : arrange g.intervals g.relations = .ok g.intervals := by
    unfold arrange
    dsimp only
    rw [ho']
    exact congrArg Except.ok hsame
  have hrep : firstRepeated? [] (g.intervals.map Interval.dim) = none :=
    firstRepeated?_eq_none.mpr ⟨hnodup, by simp⟩
  unfold Settled build
  dsimp only
  rw [build_relations h, hrep, harrange]
  rfl

def Involves (g : IntervalGroup) (d : Dimension) : Prop :=
  d ∈ g.dimensions ∨ ∃ chain ∈ g.relations.toList, d ∈ chain

/-- The chains of a group that is built from renamed ones. -/
theorem mem_relations_renamed {rename : Dimension → Dimension} {g' : IntervalGroup}
    (hg : g.Settled) (h : build intervals (g.relations.toList.map (·.map rename)) = .ok g')
    {chain : List Dimension} :
    chain ∈ g'.relations.toList ↔ ∃ old ∈ g.relations.toList, chain = old.map rename := by
  rw [(build_cases h).2.1, SortedSet.mem_ofList, List.mem_filter, List.mem_map]
  constructor
  · rintro ⟨⟨old, hold, rfl⟩, -⟩
    exact ⟨old, hold, rfl⟩
  · rintro ⟨old, hold, rfl⟩
    have hlong := hold
    rw [← build_relations hg, SortedSet.mem_ofList, List.mem_filter] at hlong
    exact ⟨⟨old, hold, rfl⟩, by simpa using hlong.2⟩

/-- A settled group keeps its order when its dimensions get other names. -/
theorem build_renamed {rename : Dimension → Dimension} {g' : IntervalGroup} (hg : g.Settled)
    (hinj : ∀ a, g.Involves a → ∀ b, g.Involves b → rename a = rename b → a = b)
    (hdims : intervals.map Interval.dim = g.dimensions.map rename)
    (h : build intervals (g.relations.toList.map (·.map rename)) = .ok g') :
    g'.intervals = intervals := by
  obtain ⟨hnd, -, order, horder, hlisted⟩ := build_cases hg
  have hperm := linearExtension?_perm horder
  have hlisted := build_dimensions hlisted
  have hinvolves : ∀ e, e ∈ order ↔ g.Involves e := by
    intro e
    rw [hperm.mem_iff, mem_absent_append, Involves, dimensions]
  have hnodup : (order.map rename).Nodup := by
    refine List.Nodup.map_on ?_ (hperm.nodup_iff.mpr (absent_append_nodup hnd))
    exact fun a ha b hb => hinj a ((hinvolves a).mp ha) b ((hinvolves b).mp hb)
  have hmem : ∀ e ∈ order, rename e ∈ g.dimensions.map rename ↔ e ∈ g.dimensions := by
    intro e he
    refine ⟨fun hin => ?_, List.mem_map_of_mem⟩
    obtain ⟨e', he', heq⟩ := List.mem_map.mp hin
    exact hinj e' (.inl he') e ((hinvolves e).mp he) heq ▸ he'
  refine build_suited h (order.map rename) ?_ ?_ ?_
  · refine (List.perm_ext_iff_of_nodup hnodup (absent_append_nodup (build_cases h).1)).mpr ?_
    intro a
    rw [mem_absent_append, hdims]
    constructor
    · intro ha
      obtain ⟨e, he, rfl⟩ := List.mem_map.mp ha
      rcases (hinvolves e).mp he with hd | ⟨chain, hchain, hd⟩
      · exact .inl (List.mem_map_of_mem hd)
      · exact .inr ⟨chain.map rename, (mem_relations_renamed hg h).mpr ⟨chain, hchain, rfl⟩,
          List.mem_map_of_mem hd⟩
    · rintro (ha | ⟨chain, hchain, ha⟩)
      · obtain ⟨e, he, rfl⟩ := List.mem_map.mp ha
        exact List.mem_map_of_mem ((hinvolves e).mpr (.inl he))
      · obtain ⟨old, hold, rfl⟩ := (mem_relations_renamed hg h).mp hchain
        obtain ⟨e, he, rfl⟩ := List.mem_map.mp ha
        exact List.mem_map_of_mem ((hinvolves e).mpr (.inr ⟨old, hold, he⟩))
  · rw [hdims, List.filter_map]
    conv_rhs => rw [hlisted]
    exact congrArg _ (List.filter_congr fun e he => decide_eq_decide.mpr (hmem e he))
  · intro chain hchain p hp
    obtain ⟨old, hold, rfl⟩ := (mem_relations_renamed hg h).mp hchain
    obtain ⟨q, hq, rfl⟩ := exists_of_mem_chainPairs_map hp
    have hin : q.2 ∈ order :=
      (hinvolves q.2).mpr (.inr ⟨old, hold, (precedes_of_mem_chainPairs hq).right_mem⟩)
    exact (linearExtension?_precedes horder (List.mem_flatMap.mpr ⟨old, hold, hq⟩)
      (hperm.mem_iff.mp hin)).map rename

end IntervalGroup
end LoopNest
