import LoopNest.LinExpr.Basic

namespace LoopNest
namespace LinExpr

def compareTerm : String × Int64 → String × Int64 → Ordering :=
  compareLex (compareOn Prod.fst) (compareOn Prod.snd)

instance : Std.TransCmp compareTerm :=
  inferInstanceAs (Std.TransCmp (compareLex (compareOn Prod.fst) (compareOn Prod.snd)))

instance : Std.LawfulEqCmp compareTerm where
  eq_of_compare {a b} h := by
    obtain ⟨h₁, h₂⟩ := Ordering.then_eq_eq.mp h
    exact Prod.ext (Std.LawfulEqCmp.eq_of_compare h₁) (Std.LawfulEqCmp.eq_of_compare h₂)

def compareTerms (a b : LinExpr) : Ordering :=
  List.compareLex compareTerm a.terms.entries b.terms.entries

instance : Std.OrientedCmp compareTerms :=
  have h : Std.OrientedCmp (List.compareLex compareTerm) := inferInstance
  ⟨h.eq_swap⟩

instance : Std.TransCmp compareTerms :=
  have h : Std.TransCmp (List.compareLex compareTerm) := inferInstance
  ⟨fun {_ _ _} => h.isLE_trans⟩

/-- The order by which expressions are kept in sets and serve as keys. It has no meaning as an order
of bounds. -/
instance : Ord LinExpr where
  compare := compareLex (compareOn constant) compareTerms

instance : Std.TransOrd LinExpr :=
  inferInstanceAs (Std.TransCmp (compareLex (compareOn constant) compareTerms))

theorem ext_entries {a b : LinExpr} (hc : a.constant = b.constant)
    (ht : a.terms.entries = b.terms.entries) : a = b := by
  obtain ⟨c, ⟨ts, hs⟩⟩ := a
  obtain ⟨c', ⟨ts', hs'⟩⟩ := b
  cases hc
  cases ht
  rfl

instance : Std.LawfulEqOrd LinExpr where
  eq_of_compare {a b} h := by
    obtain ⟨h₁, h₂⟩ := Ordering.then_eq_eq.mp h
    have ht : Std.LawfulEqCmp (List.compareLex compareTerm) := inferInstance
    exact ext_entries (Std.LawfulEqCmp.eq_of_compare h₁) (ht.eq_of_compare h₂)

end LinExpr
end LoopNest
