import LoopNest.Dimension.Basic

namespace LoopNest

namespace Region

def rank : Region → Nat × List LinExpr
  | left t => (0, [t])
  | middle l r => (1, [l, r])
  | right t => (2, [t])

theorem rank_injective {r s : Region} (h : r.rank = s.rank) : r = s := by
  cases r <;> cases s <;> simp_all [rank]

def order (r s : Region) : Ordering :=
  compareLex (compareOn Prod.fst) (compareOn Prod.snd) r.rank s.rank

instance : Std.TransCmp order :=
  have h : Std.TransCmp (compareLex (compareOn (Prod.fst (α := Nat)))
    (compareOn (Prod.snd (β := List LinExpr)))) := inferInstance
  have : Std.OrientedCmp order := ⟨h.eq_swap⟩
  ⟨fun {_ _ _} => h.isLE_trans⟩

instance : Std.LawfulEqCmp order where
  eq_of_compare {a b} h := by
    obtain ⟨h₁, h₂⟩ := Ordering.then_eq_eq.mp h
    exact rank_injective (Prod.ext (Std.LawfulEqCmp.eq_of_compare h₁)
      (Std.LawfulEqCmp.eq_of_compare h₂))

end Region

namespace Dimension

/-- By name, then basic before block before slab, then field by field. -/
def order : Dimension → Dimension → Ordering
  | basic n, e => (compare n e.name).then <|
    match e with
    | basic _ => .eq
    | _ => .lt
  | block n p min max step, e => (compare n e.name).then <|
    match e with
    | basic _ => .gt
    | block _ p' min' max' step' =>
      (p.order p').then (compare [min, max, step] [min', max', step'])
    | sub _ _ _ => .lt
  | sub n p r, e => (compare n e.name).then <|
    match e with
    | sub _ p' r' => (p.order p').then (r.order r')
    | _ => .gt

instance : Ord Dimension := ⟨order⟩

theorem eq_of_order {d e : Dimension} (h : d.order e = .eq) : d = e := by
  induction d generalizing e with
  | basic n =>
    cases e <;> simp [order, Ordering.then_eq_eq, name] at h
    rw [h]
  | block n p min max step ih =>
    cases e <;> simp [order, Ordering.then_eq_eq, name] at h
    obtain ⟨hn, hp, ht⟩ := h
    rw [hn, ih hp, ht.1, ht.2.1, ht.2.2]
  | sub n p r ih =>
    cases e <;> simp [order, Ordering.then_eq_eq, name] at h
    obtain ⟨hn, hp, hr⟩ := h
    rw [hn, ih hp, hr]

theorem order_swap (d e : Dimension) : d.order e = (e.order d).swap := by
  induction d generalizing e with
  | basic n => cases e <;> simp [order, name, Ordering.swap_then, Std.OrientedCmp.eq_swap (a := n)]
  | block n p min max step ih =>
    cases e with
    | block _ p' min' max' step' =>
      simp [order, name, Ordering.swap_then, Std.OrientedCmp.eq_swap (a := n), ih p',
        Std.OrientedCmp.eq_swap (a := min), Std.OrientedCmp.eq_swap (a := max),
        Std.OrientedCmp.eq_swap (a := step)]
    | _ => simp [order, name, Ordering.swap_then, Std.OrientedCmp.eq_swap (a := n)]
  | sub n p r ih =>
    cases e with
    | sub _ p' r' =>
      simp [order, name, Ordering.swap_then, Std.OrientedCmp.eq_swap (a := n), ih p',
        Std.OrientedCmp.eq_swap (a := r)]
    | _ => simp [order, name, Ordering.swap_then, Std.OrientedCmp.eq_swap (a := n)]

/-- A lexicographic step of a transitive order. -/
theorem then_lt_trans {α : Type} [Ord α] [Std.TransOrd α] [Std.LawfulEqOrd α] {a b c : α}
    {p q r : Ordering} (h : p = .lt → q = .lt → r = .lt) (hab : (compare a b).then p = .lt)
    (hbc : (compare b c).then q = .lt) : (compare a c).then r = .lt := by
  rw [Ordering.then_eq_lt] at *
  rcases hab with hab | ⟨hab, hp⟩ <;> rcases hbc with hbc | ⟨hbc, hq⟩
  · exact .inl (Std.TransCmp.lt_trans hab hbc)
  · exact .inl (Std.TransCmp.lt_of_lt_of_eq hab hbc)
  · exact .inl (Std.TransCmp.lt_of_eq_of_lt hab hbc)
  · exact .inr ⟨Std.TransCmp.eq_trans hab hbc, h hp hq⟩

theorem order_lt_trans {d e f : Dimension} (hde : d.order e = .lt) (hef : e.order f = .lt) :
    d.order f = .lt := by
  induction d generalizing e f with
  | basic n =>
    cases e <;> cases f <;> exact then_lt_trans (by simp) hde hef
  | block n p min max step ih =>
    cases e <;> cases f <;> refine then_lt_trans ?_ hde hef <;> simp only [reduceCtorEq, imp_self,
      implies_true, false_implies]
    rename_i p' min' max' step' _ p'' min'' max'' step''
    intro h₁ h₂
    rw [Ordering.then_eq_lt] at *
    rcases h₁ with h₁ | ⟨h₁, l₁⟩ <;> rcases h₂ with h₂ | ⟨h₂, l₂⟩
    · exact .inl (ih h₁ h₂)
    · exact .inl (eq_of_order h₂ ▸ h₁)
    · exact .inl (eq_of_order h₁ ▸ h₂)
    · obtain rfl := eq_of_order h₁
      exact .inr ⟨h₂, Std.TransCmp.lt_trans l₁ l₂⟩
  | sub n p r ih =>
    cases e <;> cases f <;> refine then_lt_trans ?_ hde hef <;> simp only [reduceCtorEq, imp_self,
      implies_true, false_implies]
    rename_i p' r' _ p'' r''
    intro h₁ h₂
    rw [Ordering.then_eq_lt] at *
    rcases h₁ with h₁ | ⟨h₁, l₁⟩ <;> rcases h₂ with h₂ | ⟨h₂, l₂⟩
    · exact .inl (ih h₁ h₂)
    · exact .inl (eq_of_order h₂ ▸ h₁)
    · exact .inl (eq_of_order h₁ ▸ h₂)
    · obtain rfl := eq_of_order h₁
      exact .inr ⟨h₂, Std.TransCmp.lt_trans l₁ l₂⟩

instance : Std.TransOrd Dimension where
  eq_swap := order_swap _ _
  isLE_trans {d e f} hde hef := by
    change (d.order f).isLE = true
    change (d.order e).isLE = true at hde
    change (e.order f).isLE = true at hef
    cases h₁ : d.order e with
    | gt => simp [h₁] at hde
    | eq => rwa [eq_of_order h₁]
    | lt =>
      cases h₂ : e.order f with
      | gt => simp [h₂] at hef
      | eq => rw [← eq_of_order h₂, h₁]; rfl
      | lt => rw [order_lt_trans h₁ h₂]; rfl

instance : Std.LawfulEqOrd Dimension where
  eq_of_compare := eq_of_order

end Dimension
end LoopNest
