import LoopNest.Proofs.CheckedArithmetic

namespace LoopNest
namespace LinExpr

variable {a b : LinExpr}

def Comparable (a b : LinExpr) : Prop := a.compareBound b ≠ .incomparable

instance (a b : LinExpr) : Decidable (a.Comparable b) :=
  inferInstanceAs (Decidable (a.compareBound b ≠ .incomparable))

theorem asLiteral_eq_none_iff {e : LinExpr} : e.asLiteral = none ↔ ∃ s, e.terms.find? s ≠ none := by
  have hkeys : e.isLiteral = true ↔ e.terms.entries = [] := List.isEmpty_iff
  unfold asLiteral
  split
  · rename_i hl
    simp [SortedMap.find?, hkeys.mp hl]
  · rename_i hl
    obtain ⟨t, ht⟩ := List.exists_mem_of_ne_nil _ fun he => hl (hkeys.mpr he)
    simp only [true_iff]
    exact ⟨t.1, by simp [SortedMap.find?_of_mem ht]⟩

theorem comparable_iff_literal :
    a.Comparable b ↔ ∃ r, a.sub? b = some r ∧ ∀ s, r.terms.find? s = none := by
  unfold Comparable compareBound
  constructor
  · intro h
    cases hsub : a.sub? b with
    | none => simp [hsub] at h
    | some r =>
      refine ⟨r, rfl, fun s => not_not.mp fun hs => h ?_⟩
      rw [hsub, Option.bind_some, asLiteral_eq_none_iff.mpr ⟨s, hs⟩]
  · rintro ⟨r, hsub, hr⟩
    cases hl : r.asLiteral with
    | none =>
      obtain ⟨s, hs⟩ := asLiteral_eq_none_iff.mp hl
      exact absurd (hr s) hs
    | some d =>
      rw [hsub, Option.bind_some, hl]
      dsimp only
      split
      · simp
      · split <;> simp

theorem sub?_coeff {r : LinExpr} (h : a.sub? b = some r) (s : String) :
    (a.coeff s).sub? (b.coeff s) = some (r.coeff s) := by
  obtain ⟨negated, hneg, hadd⟩ := Option.bind_eq_some_iff.mp h
  have hcoeff := scale?_coeff hneg s
  rw [Int64.mul?_minus_one] at hcoeff
  rw [← Int64.add?_of_neg? hcoeff]
  exact add?_coeff hadd s

/-- A zero that is stored in the first operand stays in the difference, or the coefficient of the
second does. -/
theorem reduced_of_literal {r : LinExpr} (h : a.sub? b = some r)
    (hr : ∀ s, r.terms.find? s = none) : a.Reduced := by
  obtain ⟨negated, hneg, hadd⟩ := Option.bind_eq_some_iff.mp h
  obtain ⟨hkept, -⟩ := add?_find? hadd
  refine reduced_iff.mpr fun s hs => ?_
  have hcoeff := add?_coeff hadd s
  rw [coeff.eq_def a, coeff.eq_def r, hs, hr s, Option.getD_some, Int64.zero_add?,
    Option.getD_none, Option.some.injEq] at hcoeff
  have habsent : negated.terms.find? s = none := by
    rw [(scale?_reduced hneg).find?, hcoeff]
    rfl
  rw [← hkept s habsent, hr s] at hs
  cases hs

theorem comparable_iff : a.Comparable b ↔ a.Reduced ∧ (∀ s, a.coeff s = b.coeff s) ∧
    ¬(b.constant = Int64.minValue ∨ ∃ s, b.coeff s = Int64.minValue) ∧
    a.constant.sub? b.constant ≠ none := by
  rw [comparable_iff_literal]
  constructor
  · rintro ⟨r, hsub, hr⟩
    have hfits := sub?_eq_none_iff.not.mp (Option.ne_none_iff_exists'.mpr ⟨r, hsub⟩)
    simp only [not_or] at hfits ⊢
    refine ⟨reduced_of_literal hsub hr, fun s => ?_, hfits.1, hfits.2.1⟩
    have hcoeff := Int64.ofInt?_eq_some_iff.mp (sub?_coeff hsub s)
    rw [coeff.eq_def r, hr s, Option.getD_none, Int64.toInt_zero] at hcoeff
    exact Int64.toInt_inj.mp (by omega)
  · rintro ⟨hreduced, hcoeff, hneg, hconstant⟩
    have hfits : a.sub? b ≠ none := by
      rw [Ne, sub?_eq_none_iff]
      simp [hneg, hconstant, hcoeff, Int64.sub?_self]
    obtain ⟨r, hsub⟩ := Option.ne_none_iff_exists'.mp hfits
    refine ⟨r, hsub, fun s => ?_⟩
    have hzero := sub?_coeff hsub s
    rw [hcoeff s, Int64.sub?_self, Option.some.injEq] at hzero
    rw [(sub?_reduced hreduced hsub).find?, ← hzero]
    rfl

namespace Comparable

/-- A bound that has an order with another one both ways has one with itself. -/
theorem self (h : a.Comparable b) (h' : b.Comparable a) : a.Comparable a := by
  exact comparable_iff.mpr ⟨(comparable_iff.mp h).1, fun _ => rfl, (comparable_iff.mp h').2.2.1,
    by simp [Int64.sub?_self]⟩

theorem eq_of_constant (h : a.Comparable b) (h' : b.Comparable a)
    (hc : a.constant.toInt = b.constant.toInt) : a = b := by
  obtain ⟨ha, hcoeff, -⟩ := comparable_iff.mp h
  refine ext_find? (Int64.toInt_inj.mp hc) fun s => ?_
  rw [ha.find?, (comparable_iff.mp h').1.find?, hcoeff]

/-- Bounds that have an order have that of their constants. -/
theorem cases (h : a.Comparable b) :
    a.compareBound b = .lt ∧ a.constant.toInt < b.constant.toInt ∨
    a.compareBound b = .eq ∧ a.constant.toInt = b.constant.toInt ∨
    a.compareBound b = .gt ∧ b.constant.toInt < a.constant.toInt := by
  have hvalue := compareBound_denote a b fun _ => 0
  simp only [denote_of_zeros] at hvalue
  unfold Comparable at h
  cases ho : a.compareBound b <;> rw [ho] at hvalue h
  · exact .inl ⟨rfl, hvalue⟩
  · exact .inr (.inl ⟨rfl, hvalue⟩)
  · exact .inr (.inr ⟨rfl, hvalue⟩)
  · exact absurd rfl h

theorem compareBound_eq_gt_iff (h : a.Comparable b) :
    a.compareBound b = .gt ↔ b.constant.toInt < a.constant.toInt := by
  rcases h.cases with ⟨ho, hc⟩ | ⟨ho, hc⟩ | ⟨ho, hc⟩ <;> simp [ho] <;> omega

theorem compareBound_eq_lt_iff (h : a.Comparable b) :
    a.compareBound b = .lt ↔ a.constant.toInt < b.constant.toInt := by
  rcases h.cases with ⟨ho, hc⟩ | ⟨ho, hc⟩ | ⟨ho, hc⟩ <;> simp [ho] <;> omega

end Comparable

theorem ordered_eq_ok_iff {order : BoundOrder} :
    a.ordered b = .ok order ↔ a.Comparable b ∧ a.compareBound b = order := by
  unfold ordered Comparable
  cases a.compareBound b <;> simp [eq_comm]

/-- The larger of two bounds is one of them and has the larger constant. -/
theorem Comparable.exists_maxBound (h : a.Comparable b) : ∃ m, a.maxBound b = .ok m ∧
    (m = a ∨ m = b) ∧ m.constant.toInt = max a.constant.toInt b.constant.toInt := by
  have ho := ordered_eq_ok_iff.mpr ⟨h, rfl⟩
  unfold maxBound
  rw [ho]
  refine ⟨_, rfl, ?_⟩
  simp only [h.compareBound_eq_lt_iff]
  split
  · exact ⟨.inr rfl, by omega⟩
  · exact ⟨.inl rfl, by omega⟩

theorem Comparable.exists_minBound (h : a.Comparable b) : ∃ m, a.minBound b = .ok m ∧
    (m = a ∨ m = b) ∧ m.constant.toInt = min a.constant.toInt b.constant.toInt := by
  have ho := ordered_eq_ok_iff.mpr ⟨h, rfl⟩
  unfold minBound
  rw [ho]
  refine ⟨_, rfl, ?_⟩
  simp only [h.compareBound_eq_gt_iff]
  split
  · exact ⟨.inr rfl, by omega⟩
  · exact ⟨.inl rfl, by omega⟩

end LinExpr
end LoopNest
