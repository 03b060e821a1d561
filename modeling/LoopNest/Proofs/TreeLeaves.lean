import LoopNest.Proofs.MeasuredDependences
import LoopNest.Proofs.TreeLoops

namespace LoopNest

/-- The head of a loop: its dimension, direction and step, and the extent of its interval as bounds.
-/
structure LoopHead.Heads (h : LoopHead) (l : IterationInterval) : Prop where
  dim : h.dim = l.dim
  direction : h.direction = l.direction
  step : h.step = l.dim.step
  extent : l.interval.extent = .ok (some (h.lower, h.upper))

theorem LoopHead.Heads.map_name {heads : List LoopHead} {loops : List IterationInterval}
    (h : List.Forall₂ LoopHead.Heads heads loops) :
    heads.map (·.dim.name) = loops.map (·.dim.name) := by
  induction h with
  | nil => rfl
  | cons hh _ ih => rw [List.map_cons, List.map_cons, ih, hh.dim]

namespace Node

structure Renders (leaf : List LoopHead × Leaf) (c : Cluster) : Prop where
  code : leaf.2 = .bundle c.equations
  loops : List.Forall₂ LoopHead.Heads leaf.1 c.loops

theorem headOf_heads (h : headOf l tags = .ok head) : head.Heads l := by
  obtain ⟨extent, he, h⟩ := Returns.of_bind (returns_ok h)
  split at h
  · rename_i lower upper
    rw [Returns.of_pure h]
    exact ⟨rfl, rfl, rfl, he⟩
  · cases h

theorem Laid.renders {path : List IterationInterval} {nodes : List Node}
    (h : Laid path clusters nodes) (houter : List.Forall₂ LoopHead.Heads outer path) :
    List.Forall₂ Renders (leavesUnderList outer nodes) clusters := by
  induction h generalizing outer with
  | nil => exact .nil
  | bundle hc _ ih => exact .cons ⟨rfl, hc ▸ houter⟩ (ih houter)
  | loop _ _ _ hhead _ _ _ hbody hrest =>
    rw [leavesUnderList, leavesUnder]
    exact List.rel_append (hbody (List.rel_append houter (.cons (headOf_heads hhead) .nil)))
      (hrest houter)

end Node

/-- Conflicting accesses are the least 64-bit integer apart along a backward loop that both clusters
run in. -/
def Cluster.Steep (a b : Cluster) : Prop :=
  ∃ l, l ∈ a.loops ∧ l ∈ b.loops ∧ l.direction = .backward ∧
    ∃ x y offsets s, Conflict a b x y ∧ x.distance y = .uniform offsets ∧
      offsets.find? s = some Int64.minValue ∧
      (Distance.dimensionOf? (a.dimensions ++ b.dimensions) s).any (·.sharesRoot l.dim)

/-- Dependences along loops that both clusters run in can be measured unless the clusters are
steep. -/
theorem dependences_error {a b : Cluster} {loops : List IterationInterval}
    (h : dependences a b loops = .error f) (ha : ∀ l ∈ loops, l ∈ a.loops)
    (hb : ∀ l ∈ loops, l ∈ b.loops) : f = .overflow ∧ a.Steep b := by
  obtain ⟨hf, x, y, offsets, hconflict, hdist, -, l, hl, hback, hmin⟩ :=
    dependences_error_iff.mp h
  obtain ⟨s, hs, hfamily⟩ := Distance.exists_of_familyOffset hmin (by decide)
  have hl := Distance.familyHeads_subset l hl
  exact ⟨hf, l, ha l hl, hb l hl, hback, x, y, offsets, s, hconflict, hdist, hs, hfamily⟩

namespace Node

def Obstructed (clusters : List Cluster) (f : Failure) : Prop :=
  (∃ c ∈ clusters, ∃ l ∈ c.loops, l.interval.isNull ∧
    f = .error (.internal .missingInterval s!"no iteration range for `{l.dim.name}`")) ∨
  f = .overflow ∧ ∃ a b, [a, b].Sublist clusters ∧ a.Steep b

theorem Obstructed.mono (h : Obstructed part f) (hs : part.Sublist clusters) :
    Obstructed clusters f := by
  rcases h with ⟨c, hc, h⟩ | ⟨hf, a, b, hab, hsteep⟩
  · exact .inl ⟨c, hs.subset hc, h⟩
  · exact .inr ⟨hf, a, b, hab.trans hs, hsteep⟩

theorem headOf_error (h : headOf l tags = .error f)
    (hfit : ∃ extent, l.interval.extent = .ok extent) :
    l.interval.isNull ∧
      f = .error (.internal .missingInterval s!"no iteration range for `{l.dim.name}`") := by
  obtain ⟨extent, he⟩ := hfit
  rcases bind_error h with h | ⟨extent', he', h⟩
  · rw [he] at h
    cases h
  · split at h
    · cases h
    · cases hi : l.interval with
      | null dim =>
        cases h
        exact ⟨rfl, rfl⟩
      | closed dim lower upper =>
        rw [hi] at he'
        obtain ⟨low, -, he'⟩ := Returns.of_bind (returns_ok he')
        obtain ⟨first, -, he'⟩ := Returns.of_bind he'
        obtain ⟨high, -, he'⟩ := Returns.of_bind he'
        obtain ⟨last, -, he'⟩ := Returns.of_bind he'
        cases he'

theorem share_error {loops : List IterationInterval} (h : share loops run = .error f)
    (hrun : ∀ c ∈ run, ∀ l ∈ loops, l ∈ c.loops) : Obstructed run f := by
  obtain ⟨done, c, rest, parts, rfl, hdone, hstep⟩ := foldlM_error (map_error h)
  have hseen : parts.reverse.flatMap Prod.fst = done := by
    have hshare : share loops done = .ok parts.reverse := by
      rw [share, hdone]
      rfl
    exact (share_cases hshare).1
  cases parts with
  | nil => cases hstep
  | cons p earlier =>
    obtain ⟨part, deps⟩ := p
    rcases bind_error hstep with hstep | ⟨found, -, hstep⟩
    · obtain ⟨a, ha, hstep⟩ := mapM_error hstep
      have had : a ∈ done := by
        rw [← hseen]
        exact List.mem_flatMap.mpr ⟨(part, deps), by simp, ha⟩
      obtain ⟨hf, hsteep⟩ := dependences_error hstep (hrun a (by simp [had])) (hrun c (by simp))
      refine .inr ⟨hf, a, c, ?_, hsteep⟩
      exact (List.singleton_sublist.mpr had).append
        (List.singleton_sublist.mpr List.mem_cons_self)
    · split at hstep <;> cases hstep

theorem nest_error {path : List IterationInterval}
    (h : nest levels path.length clusters = .error f)
    (hpath : ∀ c ∈ clusters, c.loops.take path.length = path)
    (hfit : ∀ c ∈ clusters, ∀ l ∈ c.loops, ∃ extent, l.interval.extent = .ok extent) :
    Obstructed clusters f := by
  induction levels generalizing path clusters f with
  | zero => cases h
  | succ levels ih =>
    rcases bind_error h with h | ⟨processed, -, h⟩
    swap
    · cases h
    obtain ⟨⟨key, run⟩, hmem, h⟩ := mapM_error h
    obtain ⟨hne, hkey⟩ := run_of_mem_runsBy hmem
    have hrun : run.Sublist clusters := by
      rw [← runsBy_flatMap (fun c : Cluster => c.loops.take (path.length + 1)) clusters]
      exact List.sublist_flatten_of_mem (List.mem_map_of_mem hmem)
    have hsub := hrun.subset
    refine Obstructed.mono ?_ hrun
    dsimp only at h
    split at h
    · cases h
    · rename_i l hl
      obtain ⟨c, hc⟩ := List.exists_mem_of_ne_nil run hne
      obtain rfl := key_eq_append (hpath c (hsub hc)) (hkey c hc) hl
      have hin : ∀ c ∈ run, ∀ k ∈ path ++ [l], k ∈ c.loops := by
        intro c hc k hk
        rw [← hkey c hc] at hk
        exact List.mem_of_mem_take hk
      rcases bind_error h with h | ⟨parts, hparts, h⟩
      · exact share_error h hin
      · obtain ⟨⟨part, deps⟩, hp, h⟩ := mapM_error h
        have hpart : part.Sublist run := by
          rw [← (share_cases hparts).1]
          exact List.sublist_flatten_of_mem (List.mem_map_of_mem hp)
        have hlen : (path ++ [l]).length = path.length + 1 := List.length_append
        rcases bind_error h with h | ⟨body, -, h⟩
        · rw [← hlen] at h
          refine (ih h ?_ fun c hc => hfit c (hsub (hpart.subset hc))).mono hpart
          intro c hc
          rw [hlen]
          exact hkey c (hpart.subset hc)
        · rcases bind_error h with h | ⟨head, -, h⟩
          · have hlc := hin c hc l (by simp)
            exact .inl ⟨c, hc, l, hlc, headOf_error h (hfit c (hsub hc) l hlc)⟩
          · cases h

theorem not_isNull_of_renders (h : Renders leaf c) : ∀ l ∈ c.loops, l.interval.isNull = false := by
  intro l hl
  obtain ⟨head, -, hh⟩ := exists_of_forall₂ h.loops.flip hl
  cases hi : l.interval with
  | closed dim lower upper => rfl
  | null dim =>
    have he := hh.extent
    rw [hi] at he
    cases he

/-- When all bounds can be computed, a tree is built exactly for clusters without a null interval,
and its leaves are the code of the clusters in order, each inside exactly the loops of its cluster.
A null interval is reported as missing. The exception are steep clusters, whose dependences cannot
be measured. -/
theorem build_renders {clusters : List Cluster}
    (hfit : ∀ c ∈ clusters, ∀ l ∈ c.loops, ∃ extent, l.interval.extent = .ok extent) :
    ((∃ tree, build clusters = .ok tree ∧ List.Forall₂ Renders tree.leaves clusters) ∧
        ∀ c ∈ clusters, ∀ l ∈ c.loops, l.interval.isNull = false) ∨
      (∃ c ∈ clusters, ∃ l ∈ c.loops, l.interval.isNull ∧ build clusters =
        .error (.error (.internal .missingInterval s!"no iteration range for `{l.dim.name}`"))) ∨
      build clusters = .error .overflow ∧ ∃ a b, [a, b].Sublist clusters ∧ a.Steep b := by
  cases h : build clusters with
  | ok tree =>
    refine .inl ?_
    obtain ⟨body, rfl, hlaid⟩ := build_laid h
    have hleaves : List.Forall₂ Renders (leavesUnderList [] body) clusters := hlaid.renders .nil
    refine ⟨⟨_, rfl, hleaves⟩, fun c hc => ?_⟩
    obtain ⟨leaf, -, hleaf⟩ := exists_of_forall₂ hleaves.flip hc
    exact not_isNull_of_renders hleaf
  | error f =>
    rcases bind_error h with h | ⟨body, -, h⟩
    · have h : nest _ ([] : List IterationInterval).length clusters = .error f := h
      rcases nest_error h (by simp) hfit with ⟨c, hc, l, hl, hnull, rfl⟩ | ⟨rfl, hsteep⟩
      · exact .inr (.inl ⟨c, hc, l, hl, hnull, rfl⟩)
      · exact .inr (.inr ⟨rfl, hsteep⟩)
    · cases h

/-- `u[x] = 1` and `w[x] = u[x]` are built into a tree of two leaves, each in a loop over `x`. -/
theorem build_renders_writeThenRead :
    (∀ c ∈ Cluster.writeThenRead [], ∀ l ∈ c.loops, ∃ extent, l.interval.extent = .ok extent) ∧
    ∃ tree, build (Cluster.writeThenRead []) = .ok tree ∧
      tree.leaves.map (fun leaf => leaf.1.map (·.dim.name)) = [["x"], ["x"]] ∧
      List.Forall₂ Renders tree.leaves (Cluster.writeThenRead []) := by
  have hfit : ∀ c ∈ Cluster.writeThenRead [], ∀ l ∈ c.loops,
      ∃ extent, l.interval.extent = .ok extent := by
    simp only [Cluster.writeThenRead, List.forall_mem_cons, List.not_mem_nil, false_imp_iff,
      implies_true, and_true]
    have hone : ∀ lhs rhs, ∀ l ∈ ((Cluster.single "x" lhs rhs).tagged (.basic "x") []).loops,
        ∃ extent, l.interval.extent = .ok extent := by
      intro lhs rhs l hl
      obtain rfl := List.mem_singleton.mp hl
      exact ⟨_, rfl⟩
    exact ⟨hone _ _, hone _ _⟩
  refine ⟨hfit, ?_⟩
  obtain ⟨tree, hbuild, hloops⟩ : ∃ tree, build (Cluster.writeThenRead []) = .ok tree ∧
      tree.leaves.map (fun leaf => leaf.1.map (·.dim.name)) = [["x"], ["x"]] := ⟨_, rfl, rfl⟩
  rcases build_renders hfit with ⟨⟨t, ht, hleaves⟩, -⟩ | ⟨c, -, l, -, -, h⟩ | ⟨h, -⟩
  · rw [hbuild] at ht
    cases ht
    exact ⟨tree, hbuild, hloops, hleaves⟩
  · rw [hbuild] at h
    cases h
  · rw [hbuild] at h
    cases h

/-- `u[x - 2 ^ 63] = 1` and `w[x] = u[x]` in backward loops have ranges, but no tree. -/
theorem build_overflows_steep :
    ∃ a b, a = (Cluster.single "x" (.around "x" "u" Int64.minValue) (.int 1)).reversed ∧
      b = (Cluster.single "x" (.around "x" "w" 0) (.access (.around "x" "u" 0))).reversed ∧
      (∀ c ∈ [a, b], ∀ l ∈ c.loops, ∃ lower upper,
        l.interval.extent = .ok (some (lower, upper))) ∧
      build [a, b] = .error .overflow := by
  have hone : ∀ lhs rhs, ∀ l ∈ (Cluster.single "x" lhs rhs).reversed.loops,
      ∃ lower upper, l.interval.extent = .ok (some (lower, upper)) := by
    intro lhs rhs l hl
    obtain rfl := List.mem_singleton.mp hl
    exact ⟨_, _, rfl⟩
  refine ⟨_, _, rfl, rfl, ?_, rfl⟩
  simp only [List.forall_mem_cons, List.not_mem_nil, false_imp_iff, implies_true, and_true]
  exact ⟨hone _ _, hone _ _⟩

end Node
end LoopNest
