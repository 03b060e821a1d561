import LoopNest.Proofs.CombinedGroups
import LoopNest.Proofs.UnitedSpaces

namespace LoopNest

def BoundOrder.mirror : BoundOrder → BoundOrder
  | lt => gt
  | eq => eq
  | gt => lt
  | incomparable => incomparable

namespace LinExpr

variable {a b : LinExpr}

/-- Two bounds without stored zeros of whose differences not just one overflows, unless their
coefficients differ. -/
structure Balanced (a b : LinExpr) : Prop where
  left : a.Reduced
  right : b.Reduced
  differences : (∀ s, a.coeff s = b.coeff s) → (a.sub? b = none ↔ b.sub? a = none)

theorem comparable_iff_difference :
    a.Comparable b ↔ a.Reduced ∧ (∀ s, a.coeff s = b.coeff s) ∧ a.sub? b ≠ none := by
  rw [comparable_iff]
  refine and_congr_right fun _ => and_congr_right fun hcoeff => ?_
  simp [sub?_eq_none_iff, hcoeff, Int64.sub?_self, not_or]

theorem Balanced.comparable_iff (h : Balanced a b) : a.Comparable b ↔ b.Comparable a := by
  rw [comparable_iff_difference, comparable_iff_difference]
  constructor
  · rintro ⟨-, hcoeff, hne⟩
    exact ⟨h.right, fun s => (hcoeff s).symm, (h.differences hcoeff).not.mp hne⟩
  · rintro ⟨-, hcoeff, hne⟩
    have hcoeff := fun s => (hcoeff s).symm
    exact ⟨h.left, hcoeff, (h.differences hcoeff).not.mpr hne⟩

theorem Comparable.mirror (h : a.Comparable b) (h' : b.Comparable a) :
    b.compareBound a = (a.compareBound b).mirror := by
  rcases h.cases with ⟨ho, hc⟩ | ⟨ho, hc⟩ | ⟨ho, hc⟩ <;>
    rcases h'.cases with ⟨ho', hc'⟩ | ⟨ho', hc'⟩ | ⟨ho', hc'⟩ <;> rw [ho, ho'] <;>
    first | rfl | omega

theorem Balanced.compareBound (h : Balanced a b) :
    b.compareBound a = (a.compareBound b).mirror := by
  by_cases hc : a.Comparable b
  · exact hc.mirror (h.comparable_iff.mp hc)
  · have hc' := h.comparable_iff.not.mp hc
    rw [not_not.mp hc, not_not.mp hc']
    rfl

theorem comparable_self (ha : a.Reduced) (h : a.sub? a ≠ none) : a.Comparable a :=
  comparable_iff_difference.mpr ⟨ha, fun _ => rfl, h⟩

theorem Comparable.compareBound_self (h : a.Comparable a) : a.compareBound a = .eq := by
  rcases h.cases with ⟨-, hc⟩ | ⟨ho, -⟩ | ⟨-, hc⟩
  · omega
  · exact ho
  · omega

end LinExpr

def SameOutcome (x y : Except Error α) : Prop :=
  (∃ a, x = .ok a ∧ y = .ok a) ∨
    ∃ e e' kind, x = .error e ∧ y = .error e' ∧ e.Is kind ∧ e'.Is kind

namespace SameOutcome

theorem refl (a : α) : SameOutcome (.ok a) (.ok a) := .inl ⟨a, rfl, rfl⟩

theorem bind {x y : Except Error α} {f g : α → Except Error β} (h : SameOutcome x y)
    (hf : ∀ a, x = .ok a → SameOutcome (f a) (g a)) : SameOutcome (x >>= f) (y >>= g) := by
  rcases h with ⟨a, rfl, rfl⟩ | ⟨e, e', kind, rfl, rfl, hkind⟩
  · exact hf a rfl
  · exact .inr ⟨e, e', kind, rfl, rfl, hkind⟩

end SameOutcome

namespace LinExpr

variable {a b : LinExpr}

theorem ordered_eq_error (h : ¬a.Comparable b) :
    ∃ e, a.ordered b = .error e ∧ e.Is .incomparableBounds := by
  unfold ordered
  rw [not_not.mp h]
  exact ⟨_, rfl, _, rfl⟩

/-- Of bounds that are balanced one is smaller, they are equal, or they have no order either way. -/
theorem Balanced.ordered_cases (h : Balanced a b) :
    (a.ordered b = .ok .lt ∧ b.ordered a = .ok .gt) ∨
    (a.ordered b = .ok .gt ∧ b.ordered a = .ok .lt) ∨
    (a = b ∧ b.ordered b = .ok .eq) ∨
    ∃ e e', a.ordered b = .error e ∧ b.ordered a = .error e' ∧ e.Is .incomparableBounds ∧
      e'.Is .incomparableBounds := by
  by_cases hc : a.Comparable b
  · have hc' := h.comparable_iff.mp hc
    have hmirror := h.compareBound
    rcases hc.cases with ⟨ho, -⟩ | ⟨ho, heq⟩ | ⟨ho, -⟩ <;> rw [ho] at hmirror
    · exact .inl ⟨ordered_eq_ok_iff.mpr ⟨hc, ho⟩, ordered_eq_ok_iff.mpr ⟨hc', hmirror⟩⟩
    · have hsame := hc.eq_of_constant hc' heq
      subst hsame
      exact .inr (.inr (.inl ⟨rfl, ordered_eq_ok_iff.mpr ⟨hc, ho⟩⟩))
    · exact .inr (.inl ⟨ordered_eq_ok_iff.mpr ⟨hc, ho⟩, ordered_eq_ok_iff.mpr ⟨hc', hmirror⟩⟩)
  · obtain ⟨e, he, hkind⟩ := ordered_eq_error hc
    obtain ⟨e', he', hkind'⟩ := ordered_eq_error (h.comparable_iff.not.mp hc)
    exact .inr (.inr (.inr ⟨e, e', he, he', hkind, hkind'⟩))

/-- What is chosen by the order of two balanced bounds is the same from both sides, as long as
mirrored orders choose the same. -/
theorem Balanced.choice (h : Balanced a b) {f g : BoundOrder → LinExpr}
    (hlt : f .lt = g .gt) (hgt : f .gt = g .lt) (heq : a = b → f .eq = g .eq) :
    SameOutcome (do return f (← a.ordered b)) (do return g (← b.ordered a)) := by
  rcases h.ordered_cases with ⟨ho, ho'⟩ | ⟨ho, ho'⟩ | ⟨hsame, ho⟩ | ⟨e, e', he, he', hkind⟩
  · rw [ho, ho']
    exact .inl ⟨f .lt, rfl, congrArg _ hlt.symm⟩
  · rw [ho, ho']
    exact .inl ⟨f .gt, rfl, congrArg _ hgt.symm⟩
  · rw [hsame, ho]
    exact .inl ⟨f .eq, rfl, congrArg _ (heq hsame).symm⟩
  · rw [he, he']
    exact .inr ⟨e, e', _, rfl, rfl, hkind⟩

theorem Balanced.maxBound (h : Balanced a b) : SameOutcome (a.maxBound b) (b.maxBound a) :=
  h.choice rfl rfl id

theorem Balanced.minBound (h : Balanced a b) : SameOutcome (a.minBound b) (b.minBound a) :=
  h.choice rfl rfl id

end LinExpr

namespace Interval

variable {i j : Interval}

def Balanced (i j : Interval) : Prop :=
  ∀ l u l' u', i.bounds? = some (l, u) → j.bounds? = some (l', u') →
    LinExpr.Balanced l l' ∧ LinExpr.Balanced u u'

theorem dim_of_checkSameDim {operation : String} {checked : Unit}
    (h : i.checkSameDim j operation = .ok checked) : i.dim = j.dim := by
  unfold checkSameDim at h
  split at h
  · assumption
  · cases h

theorem checkSameDim_comm (i j : Interval) (operation : String) :
    SameOutcome (i.checkSameDim j operation) (j.checkSameDim i operation) := by
  by_cases hdim : i.dim = j.dim
  · rw [checkSameDim_ok hdim, checkSameDim_ok hdim.symm]
    exact .refl ()
  · unfold checkSameDim
    rw [if_neg hdim, if_neg (Ne.symm hdim)]
    exact .inr ⟨_, _, _, rfl, rfl, ⟨_, rfl⟩, _, rfl⟩

theorem Balanced.intersection (h : i.Balanced j) :
    SameOutcome (i.intersection j) (j.intersection i) := by
  refine (checkSameDim_comm i j _).bind fun _ hchecked => ?_
  rw [dim_of_checkSameDim hchecked]
  cases i with
  | null => cases j <;> exact .refl _
  | closed d l u =>
    cases j with
    | null => exact .refl _
    | closed d' l' u' =>
      obtain ⟨hlower, hupper⟩ := h l u l' u' rfl rfl
      exact hlower.maxBound.bind fun _ _ => hupper.minBound.bind fun _ _ => .refl _

theorem Balanced.union (h : i.Balanced j) : SameOutcome (i.union j) (j.union i) := by
  refine (checkSameDim_comm i j _).bind fun _ hchecked => ?_
  have hdim := dim_of_checkSameDim hchecked
  cases i with
  | null d =>
    cases j with
    | null d' =>
      obtain rfl : d = d' := hdim
      exact .refl _
    | closed => exact .refl _
  | closed d l u =>
    cases j with
    | null => exact .refl _
    | closed d' l' u' =>
      obtain rfl : d = d' := hdim
      obtain ⟨hlower, hupper⟩ := h l u l' u' rfl rfl
      exact hlower.minBound.bind fun _ _ => hupper.maxBound.bind fun _ _ => .refl _

theorem union_same (h : ∀ a ∈ i.limits, a.Comparable a) : i.union i = .ok i := by
  cases i with
  | null d =>
    unfold Interval.union
    rw [checkSameDim_ok rfl]
    rfl
  | closed d l u =>
    obtain ⟨low, hlow, hl, -⟩ := (h l (by simp [limits])).exists_minBound
    obtain ⟨high, hhigh, hu, -⟩ := (h u (by simp [limits])).exists_maxBound
    unfold Interval.union
    rw [checkSameDim_ok rfl]
    simp only [bounds?, hlow, hhigh, (or_self_iff.mp hl), (or_self_iff.mp hu)]
    rfl

end Interval

namespace IntervalGroup

variable {g : IntervalGroup}

def Steady (g : IntervalGroup) : Prop :=
  ∀ i ∈ g.intervals, ∀ a ∈ i.limits, a.Reduced ∧ a.sub? a ≠ none

instance (g : IntervalGroup) : Decidable g.Steady :=
  inferInstanceAs (Decidable (∀ i ∈ g.intervals, ∀ a ∈ i.limits, a.Reduced ∧ a.sub? a ≠ none))

theorem combineOver_copies (hg : g.Steady) (n : Nat) (d : Dimension) :
    combineOver .union (List.replicate (n + 1) g) d = .ok (g.find? d) := by
  unfold combineOver
  cases hd : g.find? d with
  | none =>
    rw [List.filterMap_replicate_of_none (f := fun g : IntervalGroup => g.find? d) hd]
  | some i =>
    have hi := List.mem_of_find?_eq_some hd
    have hsame := Interval.union_same fun a ha =>
      LinExpr.comparable_self (hg i hi a ha).1 (hg i hi a ha).2
    have hfold : ∀ n, (List.replicate n i).foldlM Interval.union i = .ok i := by
      intro n
      induction n with
      | zero => rfl
      | succ n ih =>
        rw [List.replicate_succ, List.foldlM_cons, hsame]
        exact ih
    rw [List.filterMap_replicate_of_some (f := fun g : IntervalGroup => g.find? d) hd,
      List.replicate_succ]
    dsimp only
    exact congrArg (some <$> ·) (hfold n)

theorem generate_copies (hs : g.Settled) (hg : g.Steady) (n : Nat) :
    generate .union (List.replicate (n + 1) g) = .ok g := by
  have hnd := build_dimensions_nodup hs
  have hdims : ((List.replicate (n + 1) g).flatMap dimensions).eraseDups = g.dimensions := by
    have hall : ∀ g' ∈ g :: List.replicate n g, g'.dimensions = g.dimensions := by
      intro g' hg'
      rw [← List.replicate_succ] at hg'
      rw [List.eq_of_mem_replicate hg']
    rw [List.replicate_succ, eraseDups_dimensions hall, eraseDups_of_nodup hnd]
  have hpick : g.dimensions.filterMap g.find? = g.intervals := pick_of_subset hnd fun i hi => hi
  rw [generate_eq (combineOver_copies hg n), hdims, hpick,
    @build_congr _ g.relations.toList]
  · exact hs
  · intro chain
    simp [List.mem_replicate]

theorem exists_generate_copies (hs : g.Settled) (hg : g.Steady) (n : Nat) :
    ∃ u, generate .union (List.replicate n g) = .ok u := by
  cases n with
  | zero => exact ⟨empty, rfl⟩
  | succ n => exact ⟨g, generate_copies hs hg n⟩

end IntervalGroup

namespace IterationSpace

variable {s : IterationSpace}

/-- Directions that are known from the space itself contradict none of its directions. -/
theorem exists_mergeDirections {known : SortedMap Dimension Direction}
    (h : ∀ d dir, known.find? d = some dir → s.directions.find? d = some dir) :
    ∃ m, mergeDirections known s = .ok m ∧
      ∀ d dir, m.find? d = some dir → s.directions.find? d = some dir := by
  have hlisted : ∀ e ∈ s.directions.entries, s.directions.find? e.1 = some e.2 :=
    fun e he => SortedMap.find?_of_mem he
  unfold mergeDirections
  generalize s.directions.entries = listed at hlisted
  induction listed generalizing known with
  | nil => exact ⟨known, rfl, h⟩
  | cons e listed ih =>
    obtain ⟨he, hrest⟩ := List.forall_mem_cons.mp hlisted
    rw [List.foldlM_cons]
    cases hknown : known.find? e.1 with
    | some existing =>
      have hsame : existing = e.2 := Option.some.inj ((h e.1 existing hknown).symm.trans he)
      dsimp only
      rw [if_pos hsame]
      exact ih h hrest
    | none =>
      refine ih (fun d dir hd => ?_) hrest
      rw [SortedMap.find?_insert] at hd
      split at hd
      · rename_i heq
        rw [heq, he, hd]
      · exact h d dir hd

theorem exists_union_copies (hs : s.Settled) (hg : s.intervals.Steady) (n : Nat) :
    ∃ u, union (List.replicate n s) = .ok u := by
  have hdirections : ∀ n (known : SortedMap Dimension Direction),
      (∀ d dir, known.find? d = some dir → s.directions.find? d = some dir) →
        ∃ m, (List.replicate n s).foldlM mergeDirections known = .ok m := by
    intro n
    induction n with
    | zero => exact fun known _ => ⟨known, rfl⟩
    | succ n ih =>
      intro known h
      obtain ⟨next, hnext, hkept⟩ := exists_mergeDirections h
      rw [List.replicate_succ, List.foldlM_cons, hnext]
      exact ih next hkept
  obtain ⟨g, hgenerate⟩ := IntervalGroup.exists_generate_copies hs hg n
  obtain ⟨m, hm⟩ := hdirections n .empty (by simp)
  unfold union
  rw [List.map_replicate, hgenerate, hm]
  exact ⟨_, rfl⟩

end IterationSpace

theorem DataSpace.exists_union_copies {s : DataSpace} (hs : s.Settled) (hg : s.intervals.Steady)
    (hparts : ∀ e ∈ s.parts.entries, e.2.Steady) (n : Nat) :
    ∃ u, union (List.replicate n s) = .ok u := by
  have hpart : ∀ a, ∃ g,
      IntervalGroup.generate .union (partsOf (List.replicate n s) a) = .ok g := by
    intro a
    unfold partsOf
    cases ha : s.parts.find? a with
    | none =>
      rw [List.filterMap_replicate_of_none (f := fun s : DataSpace => s.parts.find? a) ha]
      exact ⟨.empty, rfl⟩
    | some g =>
      have hin := SortedMap.mem_entries_of_find? ha
      rw [List.filterMap_replicate_of_some (f := fun s : DataSpace => s.parts.find? a) ha]
      exact IntervalGroup.exists_generate_copies (hs.2 _ hin) (hparts _ hin) n
  choose part hpart using hpart
  have hparts : ∀ arrays : List String, arrays.mapM (fun a =>
      (a, ·) <$> IntervalGroup.generate .union (partsOf (List.replicate n s) a)) =
        pure (arrays.map fun a => (a, part a)) := fun arrays =>
    mapM_eq_pure fun a _ => by rw [hpart]; rfl
  obtain ⟨g, hgenerate⟩ := IntervalGroup.exists_generate_copies hs.1 hg n
  unfold union
  dsimp only
  rw [List.map_replicate, hgenerate, hparts]
  exact ⟨_, rfl⟩

/-- Comparing balanced bounds the other way around mirrors their order, and a bound without stored
zeros that can be subtracted from itself is equal to itself. So intervals with balanced bounds have
the same intersection and the same union both ways around, and copies of one space with such bounds
can be united. -/
theorem comparison_mirrors :
    (∀ a b : LinExpr, a.Balanced b → b.compareBound a = (a.compareBound b).mirror) ∧
    (∀ a : LinExpr, a.Reduced → a.sub? a ≠ none → a.compareBound a = .eq) ∧
    (∀ i j : Interval, i.Balanced j → SameOutcome (i.intersection j) (j.intersection i) ∧
      SameOutcome (i.union j) (j.union i)) ∧
    (∀ (s : IterationSpace) (n : Nat), s.Settled → s.intervals.Steady →
      ∃ u, IterationSpace.union (List.replicate n s) = .ok u) ∧
    ∀ (s : DataSpace) (n : Nat), s.Settled → s.intervals.Steady →
      (∀ e ∈ s.parts.entries, e.2.Steady) → ∃ u, DataSpace.union (List.replicate n s) = .ok u :=
  ⟨fun _ _ h => h.compareBound, fun _ ha h => (LinExpr.comparable_self ha h).compareBound_self,
    fun _ _ h => ⟨h.intersection, h.union⟩,
    fun _ n hs hg => IterationSpace.exists_union_copies hs hg n,
    fun _ n hs hg hparts => DataSpace.exists_union_copies hs hg hparts n⟩

def marginOfX : DataSpace := ⟨.overNames ["x"] 0 0, .singleton "u" (.overNames ["x"] (-1) 1)⟩

theorem comparison_mirrors_around :
    (LinExpr.int (-3)).compareBound (.int 4) = .lt ∧
    (LinExpr.int 4).compareBound (.int (-3)) = .gt ∧
    (LinExpr.int 4).compareBound (.int 4) = .eq ∧
    SameOutcome ((Interval.aroundSymbol 3 1).intersection (Interval.aroundSymbol (-2) 2))
      ((Interval.aroundSymbol (-2) 2).intersection (Interval.aroundSymbol 3 1)) ∧
    (∃ u, IterationSpace.union (List.replicate 3 (.ofIntervals (.overNames ["x", "y"] 0 0))) =
      .ok u) ∧
    ∃ u, DataSpace.union (List.replicate 3 marginOfX) = .ok u := by
  obtain ⟨hmirror, hself, hintervals, hspaces, hfootprints⟩ := comparison_mirrors
  have hlt : (LinExpr.int (-3)).compareBound (.int 4) = .lt := by decide +kernel
  have hbalanced : LinExpr.Balanced (.int (-3)) (.int 4) :=
    ⟨by decide +kernel, by decide +kernel, fun _ => by decide +kernel⟩
  have haround : (Interval.aroundSymbol 3 1).Balanced (Interval.aroundSymbol (-2) 2) := by
    rintro l u l' u' ⟨⟩ ⟨⟩
    exact ⟨⟨by decide +kernel, by decide +kernel, fun _ => by decide +kernel⟩,
      by decide +kernel, by decide +kernel, fun _ => by decide +kernel⟩
  have hmargin : marginOfX.Settled := by
    refine ⟨rfl, fun e he => ?_⟩
    rw [List.mem_singleton.mp he]
    rfl
  refine ⟨hlt, ?_, hself _ (by decide +kernel) (by decide +kernel), (hintervals _ _ haround).1,
    hspaces _ 3 rfl (by decide +kernel), hfootprints _ 3 hmargin (by decide +kernel)
      (by decide +kernel)⟩
  rw [hmirror _ _ hbalanced, hlt]
  rfl

/-- A difference that overflows one way only. -/
theorem comparison_oneSided :
    (LinExpr.int (-4611686018427387904)).compareBound (.int 4611686018427387904) = .lt ∧
    (LinExpr.int 4611686018427387904).compareBound (.int (-4611686018427387904)) =
      .incomparable := by
  decide +kernel

end LoopNest
