import LoopNest.Proofs.DependenceDistance

namespace LoopNest
namespace Distance

/-- The offset of some family that a backward loop heads has no negation, and no offset is along a
symbol without a loop. -/
def Irreversible (loops : List IterationInterval) (dims : List Dimension)
    (offsets : SortedMap String Int64) : Prop :=
  (∀ s o, offsets.find? s = some o → o ≠ 0 → dimensionOf? dims s ≠ none) ∧
    ∃ l ∈ familyHeads [] loops, l.direction = .backward ∧
      familyOffset dims offsets l = Int64.minValue

section
variable {dims : List Dimension} {offsets : SortedMap String Int64} {l : IterationInterval}
  {loops : List IterationInterval}

/-- A family offset that is not zero is the offset of some symbol of the family. -/
theorem exists_of_familyOffset {o : Int64} (h : familyOffset dims offsets l = o) (ho : o ≠ 0) :
    ∃ s, offsets.find? s = some o ∧ (dimensionOf? dims s).any (·.sharesRoot l.dim) := by
  unfold familyOffset at h
  dsimp only at h
  cases hfind : ((offsets.entries.filter fun e =>
      (dimensionOf? dims e.1).any (·.sharesRoot l.dim)).map Prod.snd).find? (· ≠ 0) with
  | none =>
    rw [hfind] at h
    exact absurd h.symm ho
  | some o' =>
    rw [hfind, Option.getD_some] at h
    obtain ⟨e, he, hsnd⟩ := List.mem_map.mp (List.mem_of_find?_eq_some hfind)
    obtain ⟨hmem, hfamily⟩ := List.mem_filter.mp he
    exact ⟨e.1, by rw [SortedMap.find?_of_mem hmem, hsnd, h], hfamily⟩

theorem offsetAlong_error_iff : offsetAlong dims offsets l = .error f ↔
    f = .overflow ∧ l.direction = .backward ∧ familyOffset dims offsets l = Int64.minValue := by
  rw [offsetAlong_eq]
  cases l.direction with
  | forward => simp
  | backward =>
    rw [orOverflow_error_iff, Int64.neg?_eq_none_iff]
    simp [and_comm]

theorem project_error_iff : project loops dims offsets = .error f ↔
    f = .overflow ∧ Irreversible loops dims offsets := by
  have hfixed : (offsets.entries.any fun e => e.2 ≠ 0 ∧ dimensionOf? dims e.1 = none) = false ↔
      ∀ s o, offsets.find? s = some o → o ≠ 0 → dimensionOf? dims s ≠ none := by
    simp only [List.any_eq_false, decide_eq_true_eq, not_and, Prod.forall,
      SortedMap.find?_eq_some_iff]
  have honly : ∀ l ∈ familyHeads [] loops, ∀ f,
      (do return (l.dim, ← offsetAlong dims offsets l)) = Except.error f → f = .overflow :=
    fun l _ f h => (offsetAlong_error_iff.mp (bind_pure_error_iff.mp h)).1
  rw [project, Irreversible, ← hfixed]
  split
  · rename_i hany
    constructor
    · intro h
      cases h
    · intro h
      exact absurd hany (Bool.eq_false_iff.mp h.2.1)
  · rename_i hany
    rw [bind_pure_error_iff]
    constructor
    · intro h
      obtain ⟨l, hl, h⟩ := mapM_error h
      obtain ⟨hf, hback, hmin⟩ := offsetAlong_error_iff.mp (bind_pure_error_iff.mp h)
      exact ⟨hf, Bool.eq_false_iff.mpr hany, l, hl, hback, hmin⟩
    · rintro ⟨rfl, -, l, hl, hback, hmin⟩
      refine (mapM_error_iff honly).mpr ⟨l, hl, bind_pure_error_iff.mpr ?_⟩
      exact offsetAlong_error_iff.mpr ⟨rfl, hback, hmin⟩

theorem ofAccesses_error_iff {x y : Access} : ofAccesses loops dims x y = .error f ↔
    f = .overflow ∧ ∃ offsets, x.distance y = .uniform offsets ∧
      Irreversible loops dims offsets := by
  unfold ofAccesses
  split
  · simp_all
  · simp_all
  · rename_i offsets hd
    simp [project_error_iff, hd]

end

end Distance

def Cluster.Irreversible (a b : Cluster) (loops : List IterationInterval) : Prop :=
  ∃ x y offsets, Conflict a b x y ∧ x.distance y = .uniform offsets ∧
    Distance.Irreversible loops (a.dimensions ++ b.dimensions) offsets

section
variable {a b : Cluster} {loops : List IterationInterval}

theorem dependences_error_iff : dependences a b loops = .error f ↔
    f = .overflow ∧ a.Irreversible b loops := by
  have honly : ∀ p ∈ a.equations.flatMap fun e =>
      b.equations.flatMap fun e' => Distance.conflictingAccesses e e',
      ∀ f, Distance.ofAccesses loops (a.dimensions ++ b.dimensions) p.1 p.2 = .error f →
        f = .overflow :=
    fun p _ f h => (Distance.ofAccesses_error_iff.mp h).1
  rw [dependences, bind_pure_error_iff]
  constructor
  · intro h
    obtain ⟨⟨x, y⟩, hp, h⟩ := mapM_error h
    obtain ⟨e, he, hp⟩ := List.mem_flatMap.mp hp
    obtain ⟨e', he', hp⟩ := List.mem_flatMap.mp hp
    obtain ⟨hf, offsets, hd, hirr⟩ := Distance.ofAccesses_error_iff.mp h
    exact ⟨hf, x, y, offsets, conflict_of_mem_conflictingAccesses he he' hp, hd, hirr⟩
  · rintro ⟨rfl, x, y, offsets, hc, hd, hirr⟩
    obtain ⟨e, he, e', he', hp⟩ := hc.mem_conflictingAccesses
    refine (mapM_error_iff honly).mpr ⟨(x, y), ?_, ?_⟩
    · exact List.mem_flatMap.mpr ⟨e, he, List.mem_flatMap.mpr ⟨e', he', hp⟩⟩
    · exact Distance.ofAccesses_error_iff.mpr ⟨rfl, offsets, hd, hirr⟩

/-- Accesses that meet at a distance that no 64-bit integer holds are at an unknown distance. -/
theorem Access.distance_unknown {x y : Access} (hsame : x.element p = y.element q)
    (hm : x.Mentions s) (hwide : Int64.ofInt? (q s - p s) = none) : x.distance y = .unknown := by
  cases hd : x.distance y with
  | unknown => rfl
  | disjoint => exact absurd hsame (element_ne_of_disjoint hd p q)
  | uniform offsets =>
    obtain ⟨o, ho⟩ := Option.isSome_iff_exists.mp ((find?_isSome_iff_mentions hd s).mpr hm)
    have hmove := (element_eq_iff_shifted hd p q).mp hsame s o ho
    rw [hmove, Int64.ofInt?_toInt] at hwide
    cases hwide

theorem unknown_mem_dependences {deps : List Distance} (h : dependences a b loops = .ok deps)
    {x y : Access} (hc : Conflict a b x y) (hd : x.distance y = .unknown) : .unknown ∈ deps := by
  obtain ⟨r, hr, hmem⟩ := mem_dependences h hc
  rw [Distance.ofAccesses, hd] at hr
  cases hr
  exact hmem _ rfl

/-- Measuring dependences overflows exactly when conflicting accesses are at a distance with an
offset along a backward loop that has no negation. All other dependences are measured, and those
whose distance is not known, be it that it does not fit, are reported as unknown. -/
theorem dependences_measured (a b : Cluster) (loops : List IterationInterval) :
    (a.Irreversible b loops ∧ dependences a b loops = .error .overflow) ∨
      (¬a.Irreversible b loops ∧ ∃ deps, dependences a b loops = .ok deps ∧
        ∀ x y, Conflict a b x y →
          (x.distance y = .unknown → .unknown ∈ deps) ∧
          ∀ p q s, x.element p = y.element q → x.Mentions s →
            Int64.ofInt? (q s - p s) = none → .unknown ∈ deps) := by
  cases h : dependences a b loops with
  | error f =>
    obtain ⟨rfl, hirr⟩ := dependences_error_iff.mp h
    exact .inl ⟨hirr, rfl⟩
  | ok deps =>
    refine .inr ⟨fun hirr => ?_, deps, rfl, fun x y hc => ⟨unknown_mem_dependences h hc, ?_⟩⟩
    · rw [dependences_error_iff.mpr ⟨rfl, hirr⟩] at h
      cases h
    · intro p q s hsame hm hwide
      exact unknown_mem_dependences h hc (Access.distance_unknown hsame hm hwide)

end

/-- `u[x - 2 ^ 63] = 1` and `w[x] = u[x]` cannot be measured in a backward loop over `x`. -/
theorem dependences_overflow_backward :
    ∃ a b, a = (Cluster.single "x" (.around "x" "u" Int64.minValue) (.int 1)).reversed ∧
      b = (Cluster.single "x" (.around "x" "w" 0) (.access (.around "x" "u" 0))).reversed ∧
      a.loops = b.loops ∧ ¬∃ deps, dependences a b a.loops = .ok deps := by
  refine ⟨_, _, rfl, rfl, rfl, fun ⟨deps, h⟩ => ?_⟩
  cases h

end LoopNest
