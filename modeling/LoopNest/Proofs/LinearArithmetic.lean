import LoopNest.LinExpr.Bound
import LoopNest.Proofs.Maps
import LoopNest.Proofs.Returns
import Mathlib.Tactic.Ring

namespace LoopNest
namespace LinExpr

def weigh (v : String → Int) (ts : List (String × Int64)) : Int :=
  (ts.map fun t => t.2.toInt * v t.1).foldr (· + ·) 0

@[simp] theorem weigh_nil (v : String → Int) : weigh v [] = 0 := rfl

@[simp] theorem weigh_cons (v : String → Int) (t : String × Int64) (ts : List (String × Int64)) :
    weigh v (t :: ts) = t.2.toInt * v t.1 + weigh v ts := rfl

theorem denote_eq (e : LinExpr) (v : String → Int) :
    e.denote v = e.constant.toInt + weigh v e.terms.entries := rfl

theorem denote_symbol (s : String) (v : String → Int) : (symbol s).denote v = v s := by
  simp [denote_eq, symbol, SortedMap.singleton]

theorem weigh_insert (m : SortedMap String Int64) (s : String) (c : Int64) (v : String → Int) :
    weigh v (m.insert s c).entries = weigh v (m.erase s).entries + c.toInt * v s := by
  simp only [SortedMap.insert, SortedMap.erase]
  have hs := m.sorted
  generalize m.entries = l at hs
  have hkeep : ∀ l : List (String × Int64), (∀ e ∈ l, compare s e.1 = .lt) →
      l.filter (fun e => compare s e.1 != .eq) = l := by
    intro l hl
    refine List.filter_eq_self.mpr fun e he => ?_
    simp [hl e he]
  induction l with
  | nil => simp [SortedMap.insertEntry]
  | cons e l ih =>
    obtain ⟨he, hl⟩ := List.pairwise_cons.mp hs
    rw [SortedMap.insertEntry]
    cases hc : compare s e.1 with
    | lt =>
      have hlt : ∀ a ∈ e :: l, compare s a.1 = .lt := by
        intro a ha
        rcases List.mem_cons.mp ha with rfl | ha
        · exact hc
        · exact Std.TransCmp.lt_trans hc (he a ha)
      rw [hkeep _ hlt]
      simp only [weigh_cons]
      omega
    | eq =>
      have hlt : ∀ a ∈ l, compare s a.1 = .lt := fun a ha =>
        Std.TransCmp.lt_of_eq_of_lt hc (he a ha)
      simp only [List.filter_cons, hc, bne_self_eq_false, Bool.false_eq_true, ↓reduceIte,
        hkeep l hlt, weigh_cons]
      omega
    | gt =>
      have ih := ih hl
      simp only [List.filter_cons, hc, weigh_cons, ih]
      simp only [show (Ordering.gt != Ordering.eq) = true from rfl, ↓reduceIte, weigh_cons]
      omega

theorem weigh_erase (m : SortedMap String Int64) (s : String) (v : String → Int) :
    weigh v m.entries =
      weigh v (m.erase s).entries + ((m.find? s).getD 0).toInt * v s := by
  rw [SortedMap.find?_entries]
  simp only [SortedMap.erase]
  have hs := m.sorted
  generalize m.entries = l at hs
  induction l with
  | nil => simp
  | cons e l ih =>
    obtain ⟨he, hl⟩ := List.pairwise_cons.mp hs
    have ih := ih hl
    by_cases hc : s = e.1
    · have hne : ∀ a ∈ l, s ≠ a.1 := by
        intro a ha hsa
        have hlt := he a ha
        simp [← hc, ← hsa] at hlt
      have hnone : l.find? (fun a => decide (s = a.1)) = none := by simpa using hne
      simp only [hnone, Option.map_none, Option.getD_none] at ih
      simp only [weigh_cons, List.filter_cons, List.find?_cons, compare_beq_eq, bne, hc,
        decide_true, Bool.not_true, Bool.false_eq_true, ↓reduceIte, Option.map_some,
        Option.getD_some]
      rw [hc, Int64.toInt_zero] at ih
      simp only [bne, compare_beq_eq] at ih
      omega
    · simp only [weigh_cons, List.filter_cons, List.find?_cons, compare_beq_eq, bne, hc,
        decide_false, Bool.not_false, ↓reduceIte] at ih ⊢
      omega

theorem coeff_mul (e : LinExpr) (s : String) (v : String → Int) :
    weigh v e.terms.entries = weigh v (e.terms.erase s).entries + (e.coeff s).toInt * v s :=
  weigh_erase e.terms s v

theorem denote_replace_coeff {out : LinExpr} {s : String} {c sum : Int64}
    (h : (out.coeff s).add? c = some sum) (v : String → Int) :
    ({ out with terms := if sum ≠ 0 then (out.terms.erase s).insert s sum
        else out.terms.erase s } : LinExpr).denote v = out.denote v + c.toInt * v s := by
  have hsum : sum.toInt = (out.coeff s).toInt + c.toInt := Int64.ofInt?_eq_some_iff.mp h
  have herase : (out.terms.erase s).erase s = out.terms.erase s := by
    simp [SortedMap.erase, List.filter_filter]
  simp only [denote_eq, coeff_mul out s v]
  split
  · rw [weigh_insert, herase, hsum]
    ring
  · rename_i hz
    rw [not_not.mp hz, Int64.toInt_zero] at hsum
    have hc : c.toInt = -(out.coeff s).toInt := by omega
    rw [hc]
    ring

theorem add?_denote {a b r : LinExpr} (h : a.add? b = some r) (v : String → Int) :
    r.denote v = a.denote v + b.denote v := by
  simp only [add?, Option.bind_eq_bind, Option.bind_eq_some_iff] at h
  obtain ⟨constant, hc, hf⟩ := h
  have hconst : constant.toInt = a.constant.toInt + b.constant.toInt :=
    Int64.ofInt?_eq_some_iff.mp hc
  rw [denote_eq b]
  have hstart : ({ a with constant } : LinExpr).denote v =
      a.denote v + b.constant.toInt := by
    simp only [denote_eq, hconst]
    ring
  rw [← add_assoc, ← hstart]
  generalize ({ a with constant } : LinExpr) = out at hf
  generalize b.terms.entries = ts at hf
  induction ts generalizing out with
  | nil =>
    simp only [List.foldlM_nil, Option.pure_def, Option.some.injEq] at hf
    simp [hf]
  | cons t ts ih =>
    simp only [List.foldlM_cons, Option.bind_eq_bind, Option.bind_eq_some_iff, Option.pure_def,
      Option.some.injEq] at hf
    obtain ⟨next, ⟨sum, hsum, rfl⟩, hf⟩ := hf
    rw [ih _ hf, denote_replace_coeff hsum, weigh_cons]
    ring

theorem scale?_denote {e r : LinExpr} {n : Int64} (h : e.scale? n = some r) (v : String → Int) :
    r.denote v = n.toInt * e.denote v := by
  simp only [scale?, Option.bind_eq_bind, Option.bind_eq_some_iff] at h
  obtain ⟨constant, hc, hf⟩ := h
  have hconst : constant.toInt = e.constant.toInt * n.toInt := Int64.ofInt?_eq_some_iff.mp hc
  have hstart : (int constant).denote v = n.toInt * e.constant.toInt := by
    simp [denote_eq, int, SortedMap.empty, hconst, mul_comm]
  rw [denote_eq e, mul_add, ← hstart]
  have hs := e.terms.sorted
  have hfresh : ∀ t ∈ e.terms.entries, (int constant).terms.find? t.1 = none := fun _ _ => rfl
  generalize int constant = out at hf hfresh
  generalize e.terms.entries = ts at hf hs hfresh
  -- every symbol still to come is new, so inserting it overwrites nothing
  induction ts generalizing out with
  | nil =>
    simp only [List.foldlM_nil, Option.pure_def, Option.some.injEq] at hf
    simp [hf]
  | cons t ts ih =>
    obtain ⟨ht, hs⟩ := List.pairwise_cons.mp hs
    simp only [List.foldlM_cons, Option.bind_eq_bind, Option.bind_eq_some_iff, Option.pure_def,
      Option.some.injEq] at hf
    obtain ⟨next, ⟨c, hmul, rfl⟩, hf⟩ := hf
    have hc : c.toInt = t.2.toInt * n.toInt := Int64.ofInt?_eq_some_iff.mp hmul
    have hnew : (out.coeff t.1).toInt = 0 := by
      simp [coeff, hfresh t List.mem_cons_self]
    rw [ih _ hf hs, weigh_cons]
    · split
      · rw [denote_eq, denote_eq, weigh_insert, coeff_mul out t.1, hnew, hc]
        ring
      · rename_i hz
        rw [not_not.mp hz, Int64.toInt_zero] at hc
        have hterm : n.toInt * (t.2.toInt * v t.1) = 0 := by
          rw [← mul_assoc, mul_comm n.toInt, ← hc, zero_mul]
        rw [mul_add, hterm, zero_add]
    · intro u hu
      have hne : u.1 ≠ t.1 := by
        intro he
        have hlt := ht u hu
        simp [he] at hlt
      have hold := hfresh u (List.mem_cons_of_mem _ hu)
      split
      · rw [SortedMap.find?_insert, if_neg hne]
        exact hold
      · exact hold

theorem sub?_denote {a b r : LinExpr} (h : a.sub? b = some r) (v : String → Int) :
    r.denote v = a.denote v - b.denote v := by
  simp only [sub?, Option.bind_eq_bind, Option.bind_eq_some_iff] at h
  obtain ⟨negated, hneg, hadd⟩ := h
  rw [add?_denote hadd, scale?_denote hneg]
  have h1 : (-1 : Int64).toInt = -1 := rfl
  rw [h1]
  ring

theorem denote_of_asLiteral {e : LinExpr} {d : Int64} (h : e.asLiteral = some d)
    (v : String → Int) : e.denote v = d.toInt := by
  unfold asLiteral at h
  split at h
  · rename_i hl
    have hnil : e.terms.entries = [] := List.isEmpty_iff.mp hl
    rw [denote_eq, hnil, Option.some.inj h, weigh_nil, add_zero]
  · cases h

/-- Two expressions with a literal difference differ by it under every valuation. -/
theorem denote_of_literal_sub {a b : LinExpr} {d : Int64}
    (h : (a.sub? b).bind asLiteral = some d) (v : String → Int) :
    a.denote v = b.denote v + d.toInt := by
  obtain ⟨r, hr, hl⟩ := Option.bind_eq_some_iff.mp h
  have hsub := sub?_denote hr v
  rw [denote_of_asLiteral hl v] at hsub
  omega

/-- The value depends on the stored symbols only. -/
theorem denote_congr {e : LinExpr} {v w : String → Int} (h : ∀ s ∈ e.freeSymbols, v s = w s) :
    e.denote v = e.denote w := by
  have hterms : e.terms.entries.map (fun t => t.2.toInt * v t.1) =
      e.terms.entries.map fun t => t.2.toInt * w t.1 := by
    refine List.map_congr_left fun t ht => ?_
    rw [h t.1 (List.mem_map_of_mem ht)]
  rw [denote, denote, hterms]

theorem denote_of_no_symbol {e : LinExpr} (h : e.freeSymbols = []) (v : String → Int) :
    e.denote v = e.constant.toInt := by
  rw [denote_eq, List.map_eq_nil_iff.mp h, weigh_nil, add_zero]

theorem denote_of_one_symbol {e : LinExpr} {s : String} (h : e.freeSymbols = [s])
    (v : String → Int) : e.denote v = e.constant.toInt + (e.coeff s).toInt * v s := by
  obtain ⟨t, ht, hs⟩ := List.map_eq_singleton_iff.mp h
  have hc : e.coeff s = t.2 := by
    have hm : t ∈ e.terms.entries := by simp [ht]
    rw [coeff, ← hs, SortedMap.find?_of_mem hm, Option.getD_some]
  rw [denote_eq, ht, hc, ← hs]
  simp

theorem orOverflow_ok {o : Option α} {a : α} (h : orOverflow o = .ok a) : o = some a := by
  cases o with
  | none => cases h
  | some b =>
    cases h
    rfl

theorem int_denote (n : Int64) (v : String → Int) : (int n).denote v = n.toInt := by
  rw [denote_eq]
  exact Int.add_zero _

theorem addTerm_denote {e r : LinExpr} {s : String} {c : Int64} (h : e.addTerm s c = .ok r)
    (v : String → Int) : r.denote v = e.denote v + c.toInt * v s := by
  obtain ⟨sum, hsum, h⟩ := Returns.of_bind (returns_ok h)
  have hsum := Int64.ofInt?_eq_some_iff.mp (orOverflow_ok hsum)
  rw [Returns.of_pure h]
  simp only [denote_eq, coeff_mul e s v]
  split
  · rename_i hz
    rw [hz, Int64.toInt_zero] at hsum
    rw [show c.toInt = -(e.coeff s).toInt by omega]
    ring
  · rw [weigh_insert, hsum]
    ring

/-- Adding terms one after another adds up what they denote. -/
theorem foldlM_denote (term : String × Int64 → Int) (v : String → Int)
    {f : LinExpr → String × Int64 → Except Failure LinExpr} {ts : List (String × Int64)}
    {start r : LinExpr} (h : ts.foldlM f start = .ok r)
    (hf : ∀ out t r, f out t = .ok r → r.denote v = out.denote v + term t) :
    r.denote v = start.denote v + (ts.map term).foldr (· + ·) 0 := by
  induction ts generalizing start with
  | nil =>
    cases h
    exact (Int.add_zero _).symm
  | cons t ts ih =>
    rw [List.foldlM_cons] at h
    obtain ⟨next, hnext, h⟩ := Returns.of_bind (returns_ok h)
    rw [ih h, hf start t next hnext, List.map_cons, List.foldr_cons]
    ring

theorem add_denote {a b r : LinExpr} (h : a.add b = .ok r) (v : String → Int) :
    r.denote v = a.denote v + b.denote v := by
  obtain ⟨constant, hc, h⟩ := Returns.of_bind (returns_ok h)
  have hconst := Int64.ofInt?_eq_some_iff.mp (orOverflow_ok hc)
  have hsum : r.denote v = _ + weigh v b.terms.entries :=
    foldlM_denote (fun t => t.2.toInt * v t.1) v h fun out t r h => addTerm_denote h v
  rw [hsum, denote_eq, denote_eq, denote_eq, hconst]
  ring

theorem add_zero (e : LinExpr) : e.add .zero = .ok e := by
  have h : e.constant.add? (zero : LinExpr).constant = some e.constant :=
    Int64.ofInt?_eq_some_iff.mpr (by simp [zero, int])
  unfold add
  rw [h]
  rfl

theorem addInt_denote {e r : LinExpr} {n : Int64} (h : e.addInt n = .ok r) (v : String → Int) :
    r.denote v = e.denote v + n.toInt := by
  obtain ⟨constant, hc, h⟩ := Returns.of_bind (returns_ok h)
  have hconst := Int64.ofInt?_eq_some_iff.mp (orOverflow_ok hc)
  rw [Returns.of_pure h, denote_eq, denote_eq, hconst]
  ring

theorem subInt_denote {e r : LinExpr} {n : Int64} (h : e.subInt n = .ok r) (v : String → Int) :
    r.denote v = e.denote v - n.toInt := by
  obtain ⟨constant, hc, h⟩ := Returns.of_bind (returns_ok h)
  have hconst := Int64.ofInt?_eq_some_iff.mp (orOverflow_ok hc)
  rw [Returns.of_pure h, denote_eq, denote_eq, hconst]
  ring

theorem foldr_mul (f : α → Int) (n : Int) (ts : List α) :
    (ts.map fun t => n * f t).foldr (· + ·) 0 = n * (ts.map f).foldr (· + ·) 0 := by
  induction ts with
  | nil => simp
  | cons t ts ih => simp only [List.map_cons, List.foldr_cons, ih, mul_add]

theorem scale_denote {e r : LinExpr} {n : Int64} (h : e.scale n = .ok r) (v : String → Int) :
    r.denote v = n.toInt * e.denote v := by
  obtain ⟨constant, hc, h⟩ := Returns.of_bind (returns_ok h)
  have hconst := Int64.ofInt?_eq_some_iff.mp (orOverflow_ok hc)
  have hsum := foldlM_denote (fun t => n.toInt * (t.2.toInt * v t.1)) v h fun out t r h => by
    obtain ⟨c, hc, h⟩ := Returns.of_bind (returns_ok h)
    have hc := Int64.ofInt?_eq_some_iff.mp (orOverflow_ok hc)
    rw [addTerm_denote h v, hc]
    ring
  rw [hsum, foldr_mul, int_denote, hconst, denote]
  ring

theorem neg_denote {e r : LinExpr} (h : e.neg = .ok r) (v : String → Int) :
    r.denote v = -e.denote v := by
  rw [scale_denote h, show (-1 : Int64).toInt = -1 from rfl]
  ring

theorem sub_denote {a b r : LinExpr} (h : a.sub b = .ok r) (v : String → Int) :
    r.denote v = a.denote v - b.denote v := by
  obtain ⟨negated, hneg, h⟩ := Returns.of_bind (returns_ok h)
  rw [add_denote h, neg_denote hneg]
  ring

/-- An order found between two bounds is that of their values. -/
theorem compareBound_denote (a b : LinExpr) (v : String → Int) :
    match a.compareBound b with
    | .lt => a.denote v < b.denote v
    | .eq => a.denote v = b.denote v
    | .gt => b.denote v < a.denote v
    | .incomparable => True := by
  unfold compareBound
  cases hd : (a.sub? b).bind asLiteral with
  | none => trivial
  | some d =>
    have hab := denote_of_literal_sub hd v
    dsimp only
    by_cases hneg : d < 0
    · have hlt : d.toInt < 0 := Int64.lt_iff_toInt_lt.mp hneg
      rw [if_pos hneg]
      dsimp only
      omega
    · rw [if_neg hneg]
      by_cases hzero : d = 0
      · rw [if_pos hzero]
        rw [hzero, Int64.toInt_zero] at hab
        dsimp only
        omega
      · have hge : ¬d.toInt < 0 := fun h => hneg (Int64.lt_iff_toInt_lt.mpr h)
        have hne : d.toInt ≠ 0 := fun h => hzero (Int64.toInt_inj.mp h)
        rw [if_neg hzero]
        dsimp only
        omega

theorem ordered_ok {a b : LinExpr} {order : BoundOrder} (h : a.ordered b = .ok order) :
    a.compareBound b = order ∧ order ≠ .incomparable := by
  unfold ordered at h
  split at h
  · cases h
  · rename_i hne
    cases h
    exact ⟨rfl, hne⟩

theorem maxBound_denote {a b r : LinExpr} (h : a.maxBound b = .ok r) (v : String → Int) :
    a.denote v ≤ r.denote v ∧ b.denote v ≤ r.denote v := by
  obtain ⟨order, ho, h⟩ := Returns.of_bind (returns_ok h)
  obtain ⟨hcmp, hne⟩ := ordered_ok ho
  have hval := compareBound_denote a b v
  rw [Returns.of_pure h]
  rw [hcmp] at hval
  cases order with
  | lt =>
    rw [if_pos rfl]
    exact ⟨Int.le_of_lt hval, Int.le_refl _⟩
  | eq =>
    rw [if_neg (by decide)]
    exact ⟨Int.le_refl _, Int.le_of_eq hval.symm⟩
  | gt =>
    rw [if_neg (by decide)]
    exact ⟨Int.le_refl _, Int.le_of_lt hval⟩
  | incomparable => exact absurd rfl hne

theorem minBound_denote {a b r : LinExpr} (h : a.minBound b = .ok r) (v : String → Int) :
    r.denote v ≤ a.denote v ∧ r.denote v ≤ b.denote v := by
  obtain ⟨order, ho, h⟩ := Returns.of_bind (returns_ok h)
  obtain ⟨hcmp, hne⟩ := ordered_ok ho
  have hval := compareBound_denote a b v
  rw [Returns.of_pure h]
  rw [hcmp] at hval
  cases order with
  | lt =>
    rw [if_neg (by decide)]
    exact ⟨Int.le_refl _, Int.le_of_lt hval⟩
  | eq =>
    rw [if_neg (by decide)]
    exact ⟨Int.le_refl _, Int.le_of_eq hval⟩
  | gt =>
    rw [if_pos rfl]
    exact ⟨Int.le_of_lt hval, Int.le_refl _⟩
  | incomparable => exact absurd rfl hne

end LinExpr
end LoopNest
