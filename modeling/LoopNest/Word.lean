
namespace Int64

/-- The 64-bit integer of value `n`, if there is one. -/
def ofInt? (n : Int) : Option Int64 :=
  if minValue.toInt ≤ n ∧ n ≤ maxValue.toInt then some (ofInt n) else none

def add? (a b : Int64) : Option Int64 := ofInt? (a.toInt + b.toInt)

def sub? (a b : Int64) : Option Int64 := ofInt? (a.toInt - b.toInt)

def mul? (a b : Int64) : Option Int64 := ofInt? (a.toInt * b.toInt)

def neg? (a : Int64) : Option Int64 := ofInt? (-a.toInt)

theorem ofInt?_eq_some_iff {n : Int} {w : Int64} : ofInt? n = some w ↔ w.toInt = n := by
  unfold ofInt?
  constructor
  · intro h
    split at h
    · rename_i hr
      cases h
      exact toInt_ofInt_of_le hr.1 (Int.lt_add_one_of_le hr.2)
    · cases h
  · rintro rfl
    have hr : minValue.toInt ≤ w.toInt ∧ w.toInt ≤ maxValue.toInt :=
      ⟨w.minValue_le_toInt, w.toInt_le⟩
    rw [if_pos hr, ofInt_toInt]

theorem ofInt?_toInt (w : Int64) : ofInt? w.toInt = some w := ofInt?_eq_some_iff.mpr rfl

/-- The least integer is the only one without a negation. -/
theorem neg?_eq_none_iff {n : Int64} : n.neg? = none ↔ n = minValue := by
  have hlow := n.minValue_le_toInt
  have hhigh := n.toInt_le
  have hmin : minValue.toInt = -9223372036854775808 := rfl
  have hmax : maxValue.toInt = 9223372036854775807 := rfl
  rw [← toInt_inj, neg?, ofInt?]
  split
  · simp only [reduceCtorEq, false_iff]
    omega
  · simp only [true_iff]
    omega

end Int64
