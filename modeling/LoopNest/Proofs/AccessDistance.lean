import LoopNest.Access
import LoopNest.Proofs.LinearArithmetic
import Mathlib.Data.List.Forall2

namespace LoopNest

def Shifted (offsets : SortedMap String Int64) (p q : String → Int) : Prop :=
  ∀ s o, offsets.find? s = some o → q s - p s = o.toInt

theorem shifted_empty (p q : String → Int) : Shifted .empty p q := by
  intro s o h
  cases h

theorem shifted_insert {offsets : SortedMap String Int64} {p q : String → Int}
    (hs : offsets.find? s = none) :
    Shifted (offsets.insert s d) p q ↔ Shifted offsets p q ∧ q s - p s = d.toInt := by
  constructor
  · intro h
    refine ⟨fun t o ht => h t o ?_, h s d (SortedMap.find?_insert_self _ _ _)⟩
    have hne : t ≠ s := by
      rintro rfl
      rw [hs] at ht
      cases ht
    rw [SortedMap.find?_insert, if_neg hne]
    exact ht
  · intro h t o ht
    obtain ⟨h, hd⟩ := h
    rw [SortedMap.find?_insert] at ht
    split at ht
    · rename_i he
      rw [he, hd, Option.some.inj ht]
    · exact h t o ht

namespace Access

def Mentions (a : Access) (s : String) : Prop := ∃ i ∈ a.indices, s ∈ i.freeSymbols

instance (a : Access) (s : String) : Decidable (a.Mentions s) :=
  inferInstanceAs (Decidable (∃ i ∈ a.indices, s ∈ i.freeSymbols))

/-- Which element is accessed depends on the index variables mentioned only. -/
theorem element_congr {a : Access} {p q : String → Int} (h : ∀ s, a.Mentions s → p s = q s) :
    a.element p = a.element q := by
  rw [element, element, List.map_congr_left fun i hi =>
    LinExpr.denote_congr fun s hs => h s ⟨i, hi, hs⟩]

/-- Bare constants agree exactly when they do not differ. -/
theorem constant_subscripts_eq_iff {a b : LinExpr} {d : Int64}
    (hd : (a.sub? b).bind LinExpr.asLiteral = some d) (ha : a.freeSymbols = [])
    (p q : String → Int) : a.denote p = b.denote q ↔ d = 0 := by
  have hq := LinExpr.denote_of_literal_sub hd q
  rw [LinExpr.denote_of_no_symbol ha] at hq ⊢
  rw [← Int64.toInt_inj, Int64.toInt_zero]
  omega

/-- Subscripts over one variable agree exactly when that variable moves by their difference. -/
theorem variable_subscripts_eq_iff {a b : LinExpr} {d : Int64} {s : String}
    (hd : (a.sub? b).bind LinExpr.asLiteral = some d) (ha : a.freeSymbols = [s])
    (hc : a.coeff s = 1) (p q : String → Int) :
    a.denote p = b.denote q ↔ q s - p s = d.toInt := by
  have hq := LinExpr.denote_of_literal_sub hd q
  rw [LinExpr.denote_of_one_symbol ha, hc] at hq ⊢
  have h1 : (1 : Int64).toInt = 1 := rfl
  rw [h1] at hq ⊢
  omega

theorem distanceAlong_uniform {offsets m : SortedMap String Int64}
    {pairs : List (LinExpr × LinExpr)} (h : distanceAlong offsets pairs = .uniform m)
    (p q : String → Int) :
    Shifted m p q ↔ Shifted offsets p q ∧ ∀ e ∈ pairs, e.1.denote p = e.2.denote q := by
  induction pairs generalizing offsets with
  | nil =>
    simp only [distanceAlong, AccessDistance.uniform.injEq] at h
    simp [h]
  | cons e rest ih =>
    obtain ⟨a, b⟩ := e
    simp only [distanceAlong] at h
    split at h
    · cases h
    rename_i d hd
    split at h
    · rename_i ha
      split at h
      · rename_i h0
        have he := (constant_subscripts_eq_iff hd ha p q).mpr h0
        simp [ih h, he]
      · cases h
    · rename_i s ha
      split at h
      · rename_i hc
        have he := variable_subscripts_eq_iff hd ha hc p q
        split at h
        · rename_i hs
          rw [ih h, shifted_insert hs]
          simp [he, and_assoc]
        · rename_i known hs
          split at h
          · rename_i hk
            rw [ih h]
            constructor
            · intro h
              obtain ⟨hsh, hr⟩ := h
              refine ⟨hsh, List.forall_mem_cons.mpr ⟨he.mpr ?_, hr⟩⟩
              rw [hsh s known hs, hk]
            · intro h
              obtain ⟨hsh, hr⟩ := h
              exact ⟨hsh, (List.forall_mem_cons.mp hr).2⟩
          · cases h
      · cases h
    · cases h

theorem distanceAlong_disjoint {offsets : SortedMap String Int64}
    {pairs : List (LinExpr × LinExpr)} (h : distanceAlong offsets pairs = .disjoint)
    {p q : String → Int} (hs : Shifted offsets p q) :
    ∃ e ∈ pairs, e.1.denote p ≠ e.2.denote q := by
  induction pairs generalizing offsets with
  | nil => cases h
  | cons e rest ih =>
    obtain ⟨a, b⟩ := e
    -- an agreeing first pair leaves the disagreement to the others
    have hlater : ∀ {offsets' : SortedMap String Int64}, Shifted offsets' p q →
        distanceAlong offsets' rest = .disjoint →
        ∃ e ∈ (a, b) :: rest, e.1.denote p ≠ e.2.denote q := by
      intro offsets' hs' hr
      obtain ⟨e, he, hne⟩ := ih hr hs'
      exact ⟨e, List.mem_cons_of_mem _ he, hne⟩
    simp only [distanceAlong] at h
    split at h
    · cases h
    rename_i d hd
    split at h
    · rename_i ha
      split at h
      · exact hlater hs h
      · rename_i h0
        exact ⟨_, List.mem_cons_self, fun he => h0 ((constant_subscripts_eq_iff hd ha p q).mp he)⟩
    · rename_i s ha
      split at h
      · rename_i hc
        have he := variable_subscripts_eq_iff hd ha hc p q
        split at h
        · rename_i hnew
          by_cases hq : q s - p s = d.toInt
          · exact hlater ((shifted_insert hnew).mpr ⟨hs, hq⟩) h
          · exact ⟨_, List.mem_cons_self, fun heq => hq (he.mp heq)⟩
        · rename_i known hknown
          split at h
          · exact hlater hs h
          · rename_i hk
            refine ⟨_, List.mem_cons_self, fun heq => hk (Int64.toInt_inj.mp ?_)⟩
            rw [← hs s known hknown, he.mp heq]
      · cases h
    · cases h

theorem distanceAlong_keys {offsets m : SortedMap String Int64}
    {pairs : List (LinExpr × LinExpr)} (h : distanceAlong offsets pairs = .uniform m) (t : String) :
    (m.find? t).isSome ↔ (offsets.find? t).isSome ∨ ∃ e ∈ pairs, t ∈ e.1.freeSymbols := by
  induction pairs generalizing offsets with
  | nil =>
    simp only [distanceAlong, AccessDistance.uniform.injEq] at h
    simp [h]
  | cons e rest ih =>
    obtain ⟨a, b⟩ := e
    simp only [distanceAlong] at h
    split at h
    · cases h
    split at h
    · rename_i ha
      split at h
      · simp [ih h, ha]
      · cases h
    · rename_i s ha
      split at h
      · split at h
        · rw [ih h, SortedMap.find?_insert]
          by_cases ht : t = s <;> simp [ht, ha]
        · rename_i known hs
          split at h
          · rw [ih h]
            by_cases ht : t = s <;> simp [ht, ha, hs]
          · cases h
      · cases h
    · cases h

theorem distance_cases {x y : Access} (h : x.distance y ≠ .unknown) :
    (x.array ≠ y.array ∧ x.distance y = .disjoint) ∨
      (x.array = y.array ∧ x.indices.length = y.indices.length ∧
        x.distance y = distanceAlong .empty (x.indices.zip y.indices)) := by
  unfold distance at h ⊢
  by_cases ha : x.array = y.array
  · by_cases hl : x.indices.length = y.indices.length
    · simp [ha, hl]
    · simp [ha, hl] at h
  · simp [ha]

theorem element_eq_iff {x y : Access} (ha : x.array = y.array)
    (hl : x.indices.length = y.indices.length) (p q : String → Int) :
    x.element p = y.element q ↔
      ∀ e ∈ x.indices.zip y.indices, e.1.denote p = e.2.denote q := by
  rw [element, element, Prod.mk.injEq, ← List.forall₂_eq_eq_eq, List.forall₂_map_left_iff,
    List.forall₂_map_right_iff, List.forall₂_iff_zip]
  simp [ha, hl]

theorem element_eq_iff_shifted {x y : Access} (h : x.distance y = .uniform m)
    (p q : String → Int) : x.element p = y.element q ↔ Shifted m p q := by
  rcases distance_cases (by rw [h]; simp) with ⟨-, hd⟩ | ⟨ha, hl, hd⟩
  · rw [h] at hd
    cases hd
  · rw [h] at hd
    rw [element_eq_iff ha hl, distanceAlong_uniform hd.symm]
    simp [shifted_empty]

theorem element_ne_of_disjoint {x y : Access} (h : x.distance y = .disjoint)
    (p q : String → Int) : x.element p ≠ y.element q := by
  intro he
  rcases distance_cases (by rw [h]; simp) with ⟨ha, -⟩ | ⟨ha, hl, hd⟩
  · exact ha (congrArg Prod.fst he)
  · rw [h] at hd
    obtain ⟨e, hm, hne⟩ := distanceAlong_disjoint hd.symm (shifted_empty p q)
    exact hne ((element_eq_iff ha hl p q).mp he e hm)

/-- The distance has an offset for exactly the variables that the subscripts mention. -/
theorem find?_isSome_iff_mentions {x y : Access} (h : x.distance y = .uniform m) (s : String) :
    (m.find? s).isSome ↔ x.Mentions s := by
  rcases distance_cases (by rw [h]; simp) with ⟨-, hd⟩ | ⟨-, hl, hd⟩
  · rw [h] at hd
    cases hd
  · rw [h] at hd
    rw [distanceAlong_keys hd.symm]
    have hfst : x.indices = (x.indices.zip y.indices).map Prod.fst :=
      (List.map_fst_zip (le_of_eq hl)).symm
    conv_rhs => rw [Mentions, hfst]
    simp

/-- Under any two valuations, disjoint accesses denote different elements, and accesses at a uniform
distance denote the same element exactly when the second valuation is the first one moved by it. -/
theorem distance_exact (x y : Access) (p q : String → Int) :
    (x.distance y = .disjoint → x.element p ≠ y.element q) ∧
      ∀ m, x.distance y = .uniform m →
        x.array = y.array ∧ x.indices.length = y.indices.length ∧
          (x.element p = y.element q ↔ ∀ s o, m.find? s = some o → q s - p s = o.toInt) := by
  refine ⟨fun h => element_ne_of_disjoint h p q, fun m h => ?_⟩
  have hsame := element_eq_iff_shifted h p q
  rcases distance_cases (by rw [h]; simp) with ⟨-, hd⟩ | ⟨harray, hlength, -⟩
  · rw [h] at hd
    cases hd
  · exact ⟨harray, hlength, hsame⟩

-- a difference that leaves the 64-bit range is not known, and neither is one of stored zeros
example :
    distance ⟨"u", [⟨Int64.minValue, .singleton "x" 1⟩]⟩ ⟨"u", [.symbol "x"]⟩ =
        .uniform (.singleton "x" Int64.minValue) ∧
      distance ⟨"u", [⟨Int64.minValue, .singleton "x" 1⟩]⟩ ⟨"u", [⟨1, .singleton "x" 1⟩]⟩ =
        .unknown ∧
      distance ⟨"u", [⟨3, .singleton "x" 0⟩]⟩ ⟨"u", [.int 3]⟩ = .unknown := by
  decide

end Access
end LoopNest
