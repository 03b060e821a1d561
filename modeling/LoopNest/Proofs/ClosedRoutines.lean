import LoopNest.Proofs.LoopScopes
import LoopNest.Proofs.SharedLoops
import LoopNest.Proofs.TreeLeaves

namespace LoopNest

/-- Every symbol in the header of the loop is a parameter or the index of a loop around. -/
def LoopPlace.Closed (parameters : List String) (place : LoopPlace) : Prop :=
  ∀ s ∈ place.head.symbols, s ∈ parameters ∨ s ∈ place.outer.map (·.dim.name)

/-- A header of the first cluster mentions an index that is none of its own, but one of the second
cluster. -/
def Cluster.Borrows (a b : Cluster) : Prop :=
  ∃ l ∈ a.intervals, ∃ s, l.Mentions s ∧ s ∈ b.dimensions.map Dimension.name ∧
    s ∉ a.dimensions.map Dimension.name

instance (a b : Cluster) : Decidable (a.Borrows b) :=
  inferInstanceAs (Decidable (∃ l ∈ a.intervals, ∃ s ∈ l.headerSymbols,
    s ∈ b.dimensions.map Dimension.name ∧ s ∉ a.dimensions.map Dimension.name))

theorem Cluster.loops_map_interval (c : Cluster) : c.loops.map (·.interval) = c.intervals :=
  c.ispace.loops_map_interval

/-- What a header of a well-scoped cluster mentions of the indices of the cluster is bound
outside. -/
theorem Cluster.WellScoped.bound_outside {c : Cluster} (h : c.WellScoped)
    (hloops : c.loops = before ++ l :: after) (hm : l.interval.Mentions s)
    (hs : s ∈ c.dimensions.map Dimension.name) : s ∈ before.map (·.dim.name) := by
  have hsplit : c.intervals =
      before.map (·.interval) ++ l.interval :: after.map (·.interval) := by
    rw [← c.loops_map_interval, hloops, List.map_append, List.map_cons]
  have hinner := h.inner
  rw [hsplit, List.pairwise_append, List.pairwise_cons] at hinner
  rw [← c.loops_map_dim, hloops, List.map_map, List.map_append, List.mem_append, List.map_cons,
    List.mem_cons] at hs
  rcases hs with hs | hs | hs
  · exact hs
  · subst hs
    exact absurd hm (h.own l.interval (by simp [hsplit]))
  · obtain ⟨k, hk, rfl⟩ := List.mem_map.mp hs
    exact absurd hm (hinner.2.1.1 k.interval (List.mem_map_of_mem hk))

theorem LoopHead.Heads.mem_symbols {h : LoopHead} {l : IterationInterval} (hh : h.Heads l) :
    s ∈ h.symbols ↔ l.interval.Mentions s := by
  rw [Interval.Mentions, Interval.headerSymbols, hh.extent, LoopHead.symbols, hh.step]
  rfl

namespace Node

section
variable {path : List IterationInterval} {clusters : List Cluster} {nodes : List Node}

theorem Laid.map_head (h : Laid path clusters nodes) (outer : List LoopHead) (start : Nat) :
    (placesUnderList outer start nodes).map (·.head) = loopsList nodes := by
  induction h generalizing outer start with
  | nil => rfl
  | bundle _ _ ih => rw [places_bundle, ih, loopsList, loops, List.nil_append]
  | loop _ _ _ _ hlaid _ _ hbody hrest =>
    rw [hlaid.places_loop, List.map_cons, List.map_append, hbody, hrest, loopsList, loops,
      List.cons_append]

/-- Every loop of the code is one of a cluster, inside the outer loops of that cluster. -/
theorem Laid.cluster_of_place (h : Laid path clusters nodes) (outer : List LoopHead)
    (houter : outer.map (·.dim.name) = path.map (·.dim.name)) (start : Nat) :
    ∀ place ∈ placesUnderList outer start nodes, ∃ c ∈ clusters, ∃ before l after,
      c.loops = before ++ l :: after ∧
        place.outer.map (·.dim.name) = before.map (·.dim.name) ∧ place.head.Heads l := by
  induction h generalizing outer start with
  | nil => simp [placesUnderList]
  | bundle _ _ ih =>
    intro place hp
    rw [places_bundle] at hp
    obtain ⟨c, hc, hplace⟩ := ih outer houter _ place hp
    exact ⟨c, List.mem_cons_of_mem _ hc, hplace⟩
  | @loop part path l _ head body cs ns hne hnested _ hhead hlaid _ _ hbody hrest =>
    intro place hp
    rw [hlaid.places_loop, List.mem_cons, List.mem_append] at hp
    rcases hp with rfl | hp | hp
    · obtain ⟨c, hc⟩ := List.exists_mem_of_ne_nil part hne
      have hloops := List.take_append_drop (path.length + 1) c.loops
      rw [hnested c hc, List.append_assoc] at hloops
      exact ⟨c, List.mem_append_left _ hc, path, l, _, hloops.symm, houter, headOf_heads hhead⟩
    · have hbelow : (outer ++ [head]).map (·.dim.name) = (path ++ [l]).map (·.dim.name) := by
        simp [houter, (headOf_cases hhead).1]
      obtain ⟨c, hc, hplace⟩ := hbody _ hbelow start place hp
      exact ⟨c, List.mem_append_left _ hc, hplace⟩
    · obtain ⟨c, hc, hplace⟩ := hrest outer houter _ place hp
      exact ⟨c, List.mem_append_right _ hc, hplace⟩

/-- Every loop of a cluster is in the code, inside the outer loops of the cluster. -/
theorem Laid.place_of_cluster (h : Laid path clusters nodes) (outer : List LoopHead)
    (houter : outer.map (·.dim.name) = path.map (·.dim.name)) (start : Nat) (hc : c ∈ clusters)
    (hloops : c.loops = before ++ l :: after) (hdeep : path.length ≤ before.length) :
    ∃ place ∈ placesUnderList outer start nodes,
      place.outer.map (·.dim.name) = before.map (·.dim.name) ∧ place.head.Heads l := by
  induction h generalizing outer start with
  | nil => cases hc
  | bundle hend _ ih =>
    rw [places_bundle]
    rcases List.mem_cons.mp hc with rfl | hc
    · rw [← hend, hloops, List.length_append, List.length_cons] at hdeep
      omega
    · exact ih outer houter _ hc hdeep
  | @loop part path l' _ head body cs ns _ hnested _ hhead hlaid _ _ hbody hrest =>
    rw [hlaid.places_loop]
    rcases List.mem_append.mp hc with hc | hc
    · have hkey := hnested c hc
      rw [hloops] at hkey
      rcases Nat.eq_or_lt_of_le hdeep with heq | hlt
      · rw [heq, List.take_length_add_append, List.take_succ_cons, List.take_zero] at hkey
        obtain ⟨rfl, hl⟩ := List.append_inj' hkey rfl
        obtain rfl := List.singleton_inj.mp hl
        exact ⟨_, List.mem_cons_self, houter, headOf_heads hhead⟩
      · have hbelow : (outer ++ [head]).map (·.dim.name) = (path ++ [l']).map (·.dim.name) := by
          simp [houter, (headOf_cases hhead).1]
        obtain ⟨place, hp, hplace⟩ := hbody _ hbelow start hc (by
          rw [List.length_append, List.length_singleton]
          exact hlt)
        exact ⟨place, List.mem_cons_of_mem _ (List.mem_append_left _ hp), hplace⟩
    · obtain ⟨place, hp, hplace⟩ := hrest outer houter (start + part.length) hc hdeep
      exact ⟨place, List.mem_cons_of_mem _ (List.mem_append_right _ hp), hplace⟩

end

/-- The parameters of a routine: what its headers mention, apart from the indices of its loops. -/
theorem mem_parameters {body : List Node} : s ∈ parameters body ↔
    (∃ h ∈ loopsList body, s ∈ h.symbols) ∧ s ∉ (loopsList body).map (·.dim.name) := by
  simp only [parameters, SortedSet.mem_ofList, List.mem_filter, List.mem_flatMap, decide_not,
    Bool.not_eq_true', decide_eq_false_iff_not]

section
variable {clusters : List Cluster} {body : List Node}

theorem Laid.mem_indices (h : Laid [] clusters body) :
    s ∈ (loopsList body).map (·.dim.name) ↔
      ∃ c ∈ clusters, s ∈ c.dimensions.map Dimension.name := by
  rw [← h.map_head [] 0, List.map_map]
  constructor
  · intro hs
    obtain ⟨place, hp, rfl⟩ := List.mem_map.mp hs
    obtain ⟨c, hc, before, l, after, hloops, -, hhead⟩ := h.cluster_of_place [] rfl 0 place hp
    have hl : l ∈ c.loops := by simp [hloops]
    exact ⟨c, hc, List.mem_map.mpr ⟨l.dim, c.dim_mem_dimensions hl, congrArg _ hhead.dim.symm⟩⟩
  · rintro ⟨c, hc, hs⟩
    rw [← c.loops_map_dim, List.map_map] at hs
    obtain ⟨l, hl, rfl⟩ := List.mem_map.mp hs
    obtain ⟨before, after, hloops⟩ := List.append_of_mem hl
    obtain ⟨place, hp, -, hhead⟩ := h.place_of_cluster [] rfl 0 hc hloops (Nat.zero_le _)
    exact List.mem_map.mpr ⟨place, hp, congrArg _ hhead.dim⟩

/-- Over clusters whose headers only mention what is bound further out, or nothing of their own, all
that a header mentions has a value exactly if no cluster borrows an index of another one. -/
theorem build_closed_iff {tree : Node} (h : build clusters = .ok tree)
    (hscoped : ∀ c ∈ clusters, c.WellScoped) :
    ∃ name parameters body, tree = routine name parameters body ∧
      ((∀ place ∈ tree.places, place.Closed parameters) ↔
        ∀ a ∈ clusters, ∀ b ∈ clusters, ¬a.Borrows b) := by
  obtain ⟨body, rfl, hlaid⟩ := build_laid h
  refine ⟨_, _, body, rfl, fun hclosed a ha b hb hborrows => ?_, fun hfree place hp s hs => ?_⟩
  · obtain ⟨i, hi, s, hmentions, hsb, hsa⟩ := hborrows
    rw [← a.loops_map_interval] at hi
    obtain ⟨l, hl, rfl⟩ := List.mem_map.mp hi
    obtain ⟨before, after, hloops⟩ := List.append_of_mem hl
    obtain ⟨place, hp, houter, hhead⟩ := hlaid.place_of_cluster [] rfl 0 ha hloops (Nat.zero_le _)
    rcases hclosed place hp s (hhead.mem_symbols.mpr hmentions) with hs | hs
    · exact (mem_parameters.mp hs).2 (hlaid.mem_indices.mpr ⟨b, hb, hsb⟩)
    · refine hsa ?_
      rw [← a.loops_map_dim, hloops, List.map_map, List.map_append]
      exact List.mem_append_left _ (houter ▸ hs)
  · obtain ⟨c, hc, before, l, after, hloops, houter, hhead⟩ :=
      hlaid.cluster_of_place [] rfl 0 place hp
    have hmentions := hhead.mem_symbols.mp hs
    refine or_iff_not_imp_left.mpr fun hnot => ?_
    have hindex : s ∈ (loopsList body).map (·.dim.name) := by
      by_contra hfresh
      refine hnot (mem_parameters.mpr ⟨⟨place.head, ?_, hs⟩, hfresh⟩)
      rw [← hlaid.map_head [] 0]
      exact List.mem_map_of_mem hp
    obtain ⟨b, hb, hsb⟩ := hlaid.mem_indices.mp hindex
    have hl : l ∈ c.loops := by simp [hloops]
    have hown : s ∈ c.dimensions.map Dimension.name := by
      by_contra hother
      exact hfree c hc b hb ⟨l.interval, Cluster.interval_mem hl, s, hmentions, hsb, hother⟩
    rw [houter]
    exact (hscoped c hc).bound_outside hloops hmentions hown

end

end Node

def Cluster.startingAt (outer : List String) (lower : LinExpr) : Cluster :=
  let loops := outer.map (fun x => Interval.closed (.basic x) .zero .zero) ++
    [.closed (.basic "y") lower .zero]
  .ofEquation ⟨.around "y" "u" 0, .int 1, .ofIntervals (.ofIntervals loops), .empty⟩ .empty

namespace Node

/-- A loop over `y` that starts `x` further on is closed inside a loop over `x`, whatever else is
over `x`. -/
theorem build_closed_iff_triangular :
    ∃ clusters tree parameters, clusters = [Cluster.startingAt ["x"] (.symbol "x"),
        .single "x" (.around "x" "w" 0) (.int 1)] ∧
      build clusters = .ok tree ∧ (∀ c ∈ clusters, c.WellScoped) ∧
      parameters = ["x_M", "x_m", "y_M", "y_m"] ∧
      (∃ body, tree = routine kernelName parameters body) ∧
      ∀ place ∈ tree.places, place.Closed parameters := by
  obtain ⟨tree, hbuild⟩ : ∃ tree, build [Cluster.startingAt ["x"] (.symbol "x"),
      .single "x" (.around "x" "w" 0) (.int 1)] = .ok tree := ⟨_, rfl⟩
  have hscoped : ∀ c ∈ [Cluster.startingAt ["x"] (.symbol "x"),
      .single "x" (.around "x" "w" 0) (.int 1)], c.WellScoped := by decide +kernel
  obtain ⟨name, parameters, body, rfl, hiff⟩ := build_closed_iff hbuild hscoped
  have hclosed := hiff.mpr (by decide +kernel)
  cases hbuild
  exact ⟨_, _, _, rfl, rfl, hscoped, by decide +kernel, ⟨_, rfl⟩, hclosed⟩

/-- Next to a nest over `x`, a loop over `y` alone that starts `x` further on mentions an `x` that
is neither a parameter nor the index of a loop around. -/
theorem borrowed_index_undeclared :
    ∃ a b name parameters body place, a = Cluster.startingAt [] (.symbol "x") ∧
      b = Cluster.single "x" (.around "x" "w" 0) (.int 1) ∧
      (∀ c ∈ [a, b], c.WellScoped) ∧ build [a, b] = .ok (routine name parameters body) ∧
      place ∈ (routine name parameters body).places ∧ "x" ∈ place.head.symbols ∧
      "x" ∉ parameters ∧ "x" ∉ place.outer.map (·.dim.name) := by
  have hscoped : ∀ c ∈ [Cluster.startingAt [] (.symbol "x"),
      .single "x" (.around "x" "w" 0) (.int 1)], c.WellScoped := by decide +kernel
  exact ⟨_, _, _, _, _, _, rfl, rfl, hscoped, rfl, List.mem_cons_self, by decide +kernel,
    by decide +kernel, by decide +kernel⟩

end Node
end LoopNest
