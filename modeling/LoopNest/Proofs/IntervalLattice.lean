import LoopNest.Interval
import LoopNest.Proofs.BoundOrder
import Mathlib.Data.List.Pairwise

namespace LoopNest
namespace Interval

open LinExpr

def limits : Interval → List LinExpr
  | closed _ lower upper => [lower, upper]
  | null _ => []

def Measured (is : List Interval) : Prop :=
  (is.flatMap limits).Pairwise fun a b => a.Comparable b ∧ b.Comparable a

instance (is : List Interval) : Decidable (Measured is) :=
  inferInstanceAs (Decidable ((is.flatMap limits).Pairwise _))

/-- Null, or closed with the bounds in order. -/
def Proper : Interval → Prop
  | closed _ lower upper => lower.compareBound upper = .lt ∨ lower.compareBound upper = .eq
  | null _ => True

/-- A closed interval has two bounds, so each has an order with another one and thus with itself. -/
theorem Measured.comparable {is : List Interval} (h : Measured is) :
    ∀ a ∈ is.flatMap limits, ∀ b ∈ is.flatMap limits, a.Comparable b := by
  have hself : ∀ a ∈ is.flatMap limits, a.Comparable a ∧ a.Comparable a := by
    intro a ha
    obtain ⟨i, hi, ha⟩ := List.mem_flatMap.mp ha
    have hboth := (List.pairwise_flatMap.mp h).1 i hi
    cases i with
    | null => cases ha
    | closed d lower upper =>
      obtain ⟨hlu, hul⟩ := List.pairwise_pair.mp hboth
      rcases List.mem_pair.mp ha with rfl | rfl
      · exact ⟨hlu.self hul, hlu.self hul⟩
      · exact ⟨hul.self hlu, hul.self hlu⟩
  have hsymm : Std.Symm fun a b : LinExpr => a.Comparable b ∧ b.Comparable a :=
    ⟨fun _ _ hab => ⟨hab.2, hab.1⟩⟩
  intro a ha b hb
  exact (List.Pairwise.forall_of_forall hself h ha hb).1

theorem contains_null_iff {i : Interval} {d : Dimension} :
    i.contains (null d) = .ok true ↔ i.dim = d := by
  have hcheck : i.contains (null d) =
      (i.checkSameDim (null d) "containment" >>= fun _ => pure true) := by
    cases i <;> rfl
  rw [hcheck, checkSameDim]
  split
  · rename_i hdim
    exact ⟨fun _ => hdim, fun _ => rfl⟩
  · rename_i hdim
    exact ⟨fun h => (nomatch h), fun h => absurd h hdim⟩

theorem not_null_contains_closed {d d' : Dimension} {l u : LinExpr} :
    (null d).contains (closed d' l u) ≠ .ok true := by
  intro h
  obtain ⟨-, -, h⟩ := Returns.of_bind (returns_ok h)
  cases h

theorem contains_closed_iff {d d' : Dimension} {l u l' u' : LinExpr} :
    (closed d l u).contains (closed d' l' u') = .ok true ↔ d = d' ∧
      (l.Comparable l' ∧ l.constant.toInt ≤ l'.constant.toInt) ∧
      u.Comparable u' ∧ u'.constant.toInt ≤ u.constant.toInt := by
  constructor
  · intro h
    obtain ⟨_, hdim, h⟩ := Returns.of_bind (returns_ok h)
    obtain ⟨low, hlow, h⟩ := Returns.of_bind h
    obtain ⟨high, hhigh, h⟩ := Returns.of_bind h
    obtain ⟨hl, rfl⟩ := ordered_eq_ok_iff.mp hlow
    obtain ⟨hu, rfl⟩ := ordered_eq_ok_iff.mp hhigh
    have hne := of_decide_eq_true (Returns.of_pure h).symm
    rw [Ne, hl.compareBound_eq_gt_iff, Ne, hu.compareBound_eq_lt_iff, not_lt, not_lt] at hne
    unfold checkSameDim at hdim
    split at hdim
    · exact ⟨‹_›, ⟨hl, hne.1⟩, hu, hne.2⟩
    · cases hdim
  · rintro ⟨rfl, ⟨hl, hle⟩, hu, hle'⟩
    have hcheck : (closed d l u).checkSameDim (closed d l' u') "containment" = .ok () := if_pos rfl
    have hboth : l.compareBound l' ≠ .gt ∧ u.compareBound u' ≠ .lt := by
      rw [Ne, hl.compareBound_eq_gt_iff, Ne, hu.compareBound_eq_lt_iff, not_lt, not_lt]
      exact ⟨hle, hle'⟩
    unfold contains
    rw [hcheck]
    simp only [bounds?, ordered_eq_ok_iff.mpr ⟨hl, rfl⟩, ordered_eq_ok_iff.mpr ⟨hu, rfl⟩]
    exact congrArg Except.ok (decide_eq_true hboth)

theorem dim_of_contains {i j : Interval} (h : i.contains j = .ok true) : i.dim = j.dim := by
  cases j with
  | null => exact contains_null_iff.mp h
  | closed =>
    cases i with
    | null => exact absurd h not_null_contains_closed
    | closed => exact (contains_closed_iff.mp h).1

theorem contains_self {i : Interval} (hc : ∀ a ∈ i.limits, ∀ b ∈ i.limits, a.Comparable b) :
    i.contains i = .ok true := by
  cases i with
  | null => exact contains_null_iff.mpr rfl
  | closed d l u =>
    exact contains_closed_iff.mpr ⟨rfl, ⟨hc l (by simp [limits]) l (by simp [limits]), le_rfl⟩,
      hc u (by simp [limits]) u (by simp [limits]), le_rfl⟩

theorem contains_trans {i j k : Interval}
    (hc : ∀ a ∈ i.limits, ∀ b ∈ k.limits, a.Comparable b) (h : i.contains j = .ok true)
    (h' : j.contains k = .ok true) : i.contains k = .ok true := by
  have hdim := (dim_of_contains h).trans (dim_of_contains h')
  cases k with
  | null => exact contains_null_iff.mpr hdim
  | closed =>
    cases j with
    | null => exact absurd h' not_null_contains_closed
    | closed =>
      cases i with
      | null => exact absurd h not_null_contains_closed
      | closed =>
        obtain ⟨-, ⟨-, hl⟩, -, hu⟩ := contains_closed_iff.mp h
        obtain ⟨-, ⟨-, hl'⟩, -, hu'⟩ := contains_closed_iff.mp h'
        exact contains_closed_iff.mpr ⟨hdim, ⟨hc _ (by simp [limits]) _ (by simp [limits]),
          hl.trans hl'⟩, hc _ (by simp [limits]) _ (by simp [limits]), hu'.trans hu⟩

/-- Intervals that contain one another are equal. -/
theorem eq_of_contains {i j : Interval} (h : i.contains j = .ok true)
    (h' : j.contains i = .ok true) : i = j := by
  cases i with
  | null =>
    cases j with
    | null => exact congrArg null (contains_null_iff.mp h)
    | closed => exact absurd h not_null_contains_closed
  | closed =>
    cases j with
    | null => exact absurd h' not_null_contains_closed
    | closed =>
      obtain ⟨rfl, ⟨hl, hle⟩, hu, hle'⟩ := contains_closed_iff.mp h
      obtain ⟨-, ⟨hl', hge⟩, hu', hge'⟩ := contains_closed_iff.mp h'
      rw [hl.eq_of_constant hl' (Int.le_antisymm hle hge),
        hu.eq_of_constant hu' (Int.le_antisymm hge' hle')]

/-- The largest of the proper intervals that all of the given ones contain. -/
structure Meet (is : List Interval) (m : Interval) : Prop where
  within : ∀ i ∈ is, i.contains m = .ok true
  greatest : ∀ k : Interval, k.Proper → (∀ i ∈ is, i.contains k = .ok true) →
    m.contains k = .ok true

structure Join (is : List Interval) (m : Interval) : Prop where
  contains : ∀ i ∈ is, m.contains i = .ok true
  least : ∀ k : Interval, (∀ i ∈ is, k.contains i = .ok true) → k.contains m = .ok true

section
variable {i j : Interval}

theorem proper_of_le {d : Dimension} {l u : LinExpr} (hc : l.Comparable u)
    (h : l.constant.toInt ≤ u.constant.toInt) : (closed d l u).Proper := by
  rcases hc.cases with ⟨ho, -⟩ | ⟨ho, -⟩ | ⟨-, hlt⟩
  · exact .inl ho
  · exact .inr ho
  · omega

theorem le_of_proper {d : Dimension} {l u : LinExpr} (h : (closed d l u).Proper) :
    l.constant.toInt ≤ u.constant.toInt := by
  have hc : l.Comparable u := by
    rcases h with h | h <;> simp [Comparable, h]
  have hgt : l.compareBound u ≠ .gt := by
    rcases h with h | h <;> simp [h]
  exact not_lt.mp (hc.compareBound_eq_gt_iff.not.mp hgt)

/-- Where no proper interval with points is within both, the meet is null. -/
theorem meet_null (hdim : i.dim = j.dim) (hempty : ∀ d l u, (closed d l u).Proper →
    i.contains (closed d l u) = .ok true → j.contains (closed d l u) ≠ .ok true) :
    Meet [i, j] (null i.dim) := by
  refine ⟨by simp [contains_null_iff, hdim], fun k hk hin => ?_⟩
  rw [List.forall_mem_cons, List.forall_mem_singleton] at hin
  cases k with
  | null d => exact contains_null_iff.mpr (dim_of_contains hin.1)
  | closed d l u => exact absurd hin.2 (hempty d l u hk hin.1)

section
variable {d : Dimension} {l u l' u' low high : LinExpr}
  (hc : ∀ a ∈ [l, u, l', u'], ∀ b ∈ [l, u, l', u'], a.Comparable b)
  (hlow : low = l ∨ low = l') (hhigh : high = u ∨ high = u')
include hc hlow hhigh

omit hc in
/-- The bounds of a result are bounds of the operands. -/
theorem chosen_subset : [low, high] ⊆ [l, u, l', u'] := by
  rcases hlow with rfl | rfl <;> rcases hhigh with rfl | rfl <;> simp

theorem meet_closed (hmax : low.constant.toInt = max l.constant.toInt l'.constant.toInt)
    (hmin : high.constant.toInt = min u.constant.toInt u'.constant.toInt) :
    Meet [closed d l u, closed d l' u'] (closed d low high) := by
  have hchosen := chosen_subset hlow hhigh
  have hlow' := hchosen List.mem_cons_self
  have hhigh' := hchosen (List.mem_cons_of_mem _ List.mem_cons_self)
  refine ⟨?_, fun k _ hin => ?_⟩
  · rw [List.forall_mem_cons, List.forall_mem_singleton, contains_closed_iff, contains_closed_iff]
    exact ⟨⟨rfl, ⟨hc l (by simp) low hlow', by omega⟩, hc u (by simp) high hhigh', by omega⟩,
      rfl, ⟨hc l' (by simp) low hlow', by omega⟩, hc u' (by simp) high hhigh', by omega⟩
  · rw [List.forall_mem_cons, List.forall_mem_singleton] at hin
    cases k with
    | null => exact contains_null_iff.mpr (dim_of_contains hin.1)
    | closed =>
      obtain ⟨hdim, ⟨hl, hle⟩, hu, hge⟩ := contains_closed_iff.mp hin.1
      obtain ⟨-, ⟨hl', hle'⟩, hu', hge'⟩ := contains_closed_iff.mp hin.2
      exact contains_closed_iff.mpr ⟨hdim,
        ⟨hlow.elim (fun he => he ▸ hl) (fun he => he ▸ hl'), by omega⟩,
        hhigh.elim (fun he => he ▸ hu) (fun he => he ▸ hu'), by omega⟩

theorem join_closed (hmin : low.constant.toInt = min l.constant.toInt l'.constant.toInt)
    (hmax : high.constant.toInt = max u.constant.toInt u'.constant.toInt) :
    Join [closed d l u, closed d l' u'] (closed d low high) := by
  have hchosen := chosen_subset hlow hhigh
  have hlow' := hchosen List.mem_cons_self
  have hhigh' := hchosen (List.mem_cons_of_mem _ List.mem_cons_self)
  refine ⟨?_, fun k hin => ?_⟩
  · rw [List.forall_mem_cons, List.forall_mem_singleton, contains_closed_iff, contains_closed_iff]
    exact ⟨⟨rfl, ⟨hc low hlow' l (by simp), by omega⟩, hc high hhigh' u (by simp), by omega⟩,
      rfl, ⟨hc low hlow' l' (by simp), by omega⟩, hc high hhigh' u' (by simp), by omega⟩
  · rw [List.forall_mem_cons, List.forall_mem_singleton] at hin
    cases k with
    | null => exact absurd hin.1 not_null_contains_closed
    | closed =>
      obtain ⟨hdim, ⟨hl, hle⟩, hu, hge⟩ := contains_closed_iff.mp hin.1
      obtain ⟨-, ⟨hl', hle'⟩, hu', hge'⟩ := contains_closed_iff.mp hin.2
      exact contains_closed_iff.mpr ⟨hdim,
        ⟨hlow.elim (fun he => he ▸ hl) (fun he => he ▸ hl'), by omega⟩,
        hhigh.elim (fun he => he ▸ hu) (fun he => he ▸ hu'), by omega⟩

end

/-- Intervals with bounds that have an order intersect in their meet. -/
theorem exists_intersection (hdim : i.dim = j.dim)
    (hc : ∀ a ∈ i.limits ++ j.limits, ∀ b ∈ i.limits ++ j.limits, a.Comparable b) :
    ∃ m, i.intersection j = .ok m ∧ Meet [i, j] m ∧ m.Proper ∧ m.limits ⊆ i.limits ++ j.limits := by
  have hcheck : i.checkSameDim j "intersection" = .ok () := if_pos hdim
  unfold intersection
  rw [hcheck]
  cases i with
  | null d =>
    exact ⟨_, rfl, meet_null hdim fun _ _ _ _ h => absurd h not_null_contains_closed, trivial,
      List.nil_subset _⟩
  | closed d l u =>
    cases j with
    | null d' =>
      exact ⟨_, rfl, meet_null hdim fun _ _ _ _ _ => not_null_contains_closed, trivial,
        List.nil_subset _⟩
    | closed d' l' u' =>
      obtain rfl : d = d' := hdim
      change ∀ a ∈ [l, u, l', u'], ∀ b ∈ [l, u, l', u'], a.Comparable b at hc
      obtain ⟨low, hlow, hlow', hmax⟩ := (hc l (by simp) l' (by simp)).exists_maxBound
      obtain ⟨high, hhigh, hhigh', hmin⟩ := (hc u (by simp) u' (by simp)).exists_minBound
      have hchosen := chosen_subset hlow' hhigh'
      have hlh := hc low (hchosen (by simp)) high (hchosen (by simp))
      simp only [bounds?, hlow, hhigh]
      refine ⟨_, rfl, ?_⟩
      split
      · rename_i hempty
        rw [hlh.compareBound_eq_gt_iff] at hempty
        refine ⟨meet_null rfl fun e lk uk hk h h' => ?_, trivial, List.nil_subset _⟩
        have hle := le_of_proper hk
        obtain ⟨-, ⟨-, hl⟩, -, hu⟩ := contains_closed_iff.mp h
        obtain ⟨-, ⟨-, hl'⟩, -, hu'⟩ := contains_closed_iff.mp h'
        omega
      · rename_i hne
        rw [hlh.compareBound_eq_gt_iff, not_lt] at hne
        exact ⟨meet_closed hc hlow' hhigh' hmax hmin, proper_of_le hlh hne, hchosen⟩

/-- Intervals with bounds that have an order are united in their join. -/
theorem exists_union (hdim : i.dim = j.dim)
    (hc : ∀ a ∈ i.limits ++ j.limits, ∀ b ∈ i.limits ++ j.limits, a.Comparable b) :
    ∃ m, i.union j = .ok m ∧ Join [i, j] m ∧ m.limits ⊆ i.limits ++ j.limits := by
  have hcheck : i.checkSameDim j "union" = .ok () := if_pos hdim
  unfold union
  rw [hcheck]
  cases i with
  | null d =>
    refine ⟨j, rfl, ⟨?_, fun k hin => (List.forall_mem_cons.mp hin).2 j (by simp)⟩,
      by simp [limits]⟩
    rw [List.forall_mem_cons, List.forall_mem_singleton]
    exact ⟨contains_null_iff.mpr hdim.symm, contains_self hc⟩
  | closed d l u =>
    cases j with
    | null d' =>
      refine ⟨_, rfl, ⟨?_, fun k hin => (List.forall_mem_cons.mp hin).1⟩, by simp [limits]⟩
      rw [List.forall_mem_cons, List.forall_mem_singleton]
      exact ⟨contains_self (by simpa [limits] using hc), contains_null_iff.mpr hdim⟩
    | closed d' l' u' =>
      obtain rfl : d = d' := hdim
      change ∀ a ∈ [l, u, l', u'], ∀ b ∈ [l, u, l', u'], a.Comparable b at hc
      obtain ⟨low, hlow, hlow', hmin⟩ := (hc l (by simp) l' (by simp)).exists_minBound
      obtain ⟨high, hhigh, hhigh', hmax⟩ := (hc u (by simp) u' (by simp)).exists_maxBound
      simp only [bounds?, hlow, hhigh]
      exact ⟨_, rfl, join_closed hc hlow' hhigh' hmin hmax, chosen_subset hlow' hhigh'⟩

/-- The intersection of two intervals is the largest proper interval within both, and their union is
the smallest one that contains both, whenever any two bounds have an order. -/
theorem meet_and_join (hdim : i.dim = j.dim) (h : Measured [i, j]) :
    (∃ m, i.intersection j = .ok m ∧ Meet [i, j] m) ∧ ∃ u, i.union j = .ok u ∧ Join [i, j] u := by
  have hc := h.comparable
  rw [List.flatMap_cons, List.flatMap_singleton] at hc
  obtain ⟨m, hm, hmeet, -⟩ := exists_intersection hdim hc
  obtain ⟨u, hu, hjoin, -⟩ := exists_union hdim hc
  exact ⟨⟨m, hm, hmeet⟩, u, hu, hjoin⟩

def aroundSymbol (lower upper : Int64) : Interval :=
  closed (.basic "x") ⟨lower, .singleton "n" 1⟩ ⟨upper, .singleton "n" 1⟩

/-- Offsets from one symbol have an order, also in an interval with its bounds in the wrong one. -/
theorem meet_and_join_inverted :
    Measured [aroundSymbol 3 1, aroundSymbol (-2) 2] ∧
    (∃ m, (aroundSymbol 3 1).intersection (aroundSymbol (-2) 2) = .ok m ∧
      Meet [aroundSymbol 3 1, aroundSymbol (-2) 2] m) ∧
    ∃ u, (aroundSymbol 3 1).union (aroundSymbol (-2) 2) = .ok u ∧
      Join [aroundSymbol 3 1, aroundSymbol (-2) 2] u := by
  have hmeasured : Measured [aroundSymbol 3 1, aroundSymbol (-2) 2] := by decide +kernel
  exact ⟨hmeasured, meet_and_join rfl hmeasured⟩

end

end Interval
end LoopNest
