import LoopNest.Proofs.DependenceDistance
import LoopNest.Proofs.Tags
import LoopNest.Proofs.TreeLoops

namespace LoopNest

/-- The clusters whose code stands inside a loop: every leaf of a tree is the code of one cluster,
in order. -/
def LoopPlace.clusters (place : LoopPlace) (clusters : List Cluster) : List Cluster :=
  (clusters.drop place.start).take place.count

namespace Cluster

/-- Instances that meet in the same iterations of the outer loops are in the same iteration of the
loop over `d` as well. -/
def KeepsLevel (a b : Cluster) (outer : List Dimension) (d : Dimension) : Prop :=
  ∀ v p q x y, a.Meet b v p q x y → Agree outer p q → p d.name = q d.name

/-- The points are in different iterations of the loop over `d`, and the accesses show nothing of
it. -/
def UnseenCrossing (outer : List Dimension) (d : Dimension) (x y : Access) (p q : Valuation) :
    Prop :=
  Agree outer p q ∧ p d.name ≠ q d.name ∧ (x.distance y = .unknown ∨ ¬x.Mentions d.name)

/-- Where the subscripts do not mention a loop, its iterations meet as soon as there are two. -/
theorem not_keepsLevel {a b : Cluster} {outer : List Dimension} (hm : a.Meet b v p q x y)
    (hx : ¬x.Mentions d.name) (hagree : Agree outer p q) (hd : ∀ e ∈ outer, e.name ≠ d.name)
    (hp : ∀ s, s ≠ d.name → p' s = p s) (hpoint : a.Point v p') (hne : p' d.name ≠ q d.name) :
    ¬a.KeepsLevel b outer d := by
  intro hk
  refine hne (hk v p' q x y (hm.slide hx hp hpoint) fun e he => ?_)
  rw [hp e.name (hd e he)]
  exact hagree e he

end Cluster

namespace Node

/-- The tags that clusters share along a dimension make it parallel only if it is in every cluster
that has an entry for it, and no dependence between them is carried by it. -/
theorem isParallel_sharedTags (h : (sharedTags part deps d).toList.any Property.isParallel) :
    (∀ c ∈ part, (c.properties.find? d).isSome → c.properties.isParallel d) ∧
      ∀ e ∈ deps.filterMap Distance.carrier?, e.sharesRoot d = false := by
  have hnarrow : ((part.foldl (fun p c => p.merge c.properties) Properties.empty).narrow [d]
    deps).isParallel d := h
  obtain ⟨hmerged, hfree⟩ := Properties.isParallel_narrow hnarrow
  rw [← List.foldl_map (f := Cluster.properties) (g := Properties.merge)] at hmerged
  refine ⟨fun c hc => ?_, hfree List.mem_cons_self⟩
  exact (Properties.isParallel_foldl_merge hmerged).2 _ (List.mem_map_of_mem hc)

section
variable {clusters part : List Cluster} {place : LoopPlace} {path : List IterationInterval}
  {l : IterationInterval} {deps : List Distance}

theorem Under.mem_dimensions (hu : Under clusters place part path l deps) (hc : c ∈ part)
    {l' : IterationInterval} (hl : l' ∈ path ++ [l]) : l'.dim ∈ c.dimensions := by
  rw [← hu.nested c hc] at hl
  exact Cluster.dim_mem_dimensions (List.mem_of_mem_take hl)

/-- Instances under a parallel loop only meet within an iteration, if their distance is known and
the subscripts mention the loop. -/
theorem Under.level (hu : Under clusters place part path l deps) (hp : place.head.isParallel)
    (ha : a ∈ part) {found : List Distance}
    (hfound : dependences a b (path ++ [l]) = .ok found)
    (hdeps : ∀ dep ∈ found, dep ∈ deps ∧ dep.isReversed = false)
    (hba : a.IsBasic) (hbb : b.IsBasic) (hm : a.Meet b v p q x y)
    (hagree : Agree (path.map (·.dim)) p q) (hk : x.distance y ≠ .unknown)
    (hmention : x.Mentions l.dim.name) : p l.dim.name = q l.dim.name := by
  by_contra hne
  have htags : (sharedTags part deps l.dim).toList.any Property.isParallel := by
    rw [← hu.tags]
    exact hp
  have hfree := (isParallel_sharedTags htags).2
  obtain ⟨r, hr, hmem⟩ := mem_dependences hfound hm.conflict
  have hbasic : ∀ d ∈ a.dimensions ++ b.dimensions, d.IsBasic := fun d hd =>
    (List.mem_append.mp hd).elim (hba d) (hbb d)
  obtain ⟨w, rest, rfl, hw⟩ := Distance.ofAccesses_leading
    (fun l' hl' => List.mem_append_left _ (hu.mem_dimensions ha hl')) hbasic hr hk hm.same
    (Cluster.Point.params_eq hm.left hm.right) rfl hagree hne hmention
  obtain ⟨hin, hforward⟩ := hdeps _ (hmem _ rfl)
  have hapart : l.along p ≠ l.along q := fun he => hne (IterationInterval.along_eq_iff.mp he)
  -- the leading component is on the loop: against it the loop would not be shared, along it the
  -- loop would carry the dependence
  rcases Int.lt_trichotomy w.toInt 0 with hneg | hzero | hpos
  · rw [Distance.isReversed_of_neg hneg] at hforward
    cases hforward
  · omega
  · have hcarried := hfree l.dim
      (List.mem_filterMap.mpr ⟨_, hin, Distance.carrier?_of_pos hpos⟩)
    simp [Dimension.sharesRoot] at hcarried

end

/-- Under a parallel loop, the loop is parallel in exactly the clusters that have tags for it, and
the instances of two clusters that meet inside the outer loops are in the same iteration exactly if
no unseen crossing is among them. -/
theorem parallel_loop_level {clusters : List Cluster} {tree : Node} {place : LoopPlace}
    (h : build clusters = .ok tree) (hplace : place ∈ tree.places)
    (hp : place.head.isParallel) :
    (∀ c ∈ place.clusters clusters, c.properties.isParallel place.head.dim ↔
      (c.properties.find? place.head.dim).isSome) ∧
    (place.clusters clusters).Pairwise fun a b => a.IsBasic → b.IsBasic →
      (a.KeepsLevel b (place.outer.map (·.dim)) place.head.dim ↔ ∀ v p q x y,
        a.Meet b v p q x y →
          ¬Cluster.UnseenCrossing (place.outer.map (·.dim)) place.head.dim x y p q) := by
  obtain ⟨part, path, l, deps, hu⟩ := (build_cases h).2 place hplace
  rw [LoopPlace.clusters, ← hu.part_eq, hu.dim, hu.outer]
  have htags : (sharedTags part deps l.dim).toList.any Property.isParallel := by
    rw [← hu.tags]
    exact hp
  refine ⟨fun c hc => ⟨Properties.isSome_of_isParallel, (isParallel_sharedTags htags).1 c hc⟩, ?_⟩
  refine hu.shares.imp_of_mem ?_
  intro a b ha _ hshares hba hbb
  obtain ⟨found, hfound, hdeps⟩ := hshares
  constructor
  · intro hk v p q x y hm hcross
    obtain ⟨hagree, hne, -⟩ := hcross
    exact hne (hk v p q x y hm hagree)
  · intro hnone v p q x y hm hagree
    by_contra hne
    by_cases hseen : x.distance y = .unknown ∨ ¬x.Mentions l.dim.name
    · exact hnone v p q x y hm ⟨hagree, hne, hseen⟩
    · obtain ⟨hk, hmention⟩ := not_or.mp hseen
      exact hne (hu.level hp ha hfound hdeps hba hbb hm hagree hk (not_not.mp hmention))

/-- `u[x] = 1` and `w[x] = u[x]`, both over a parallel `x`, share a parallel loop. -/
theorem parallel_loop_level_writeThenRead :
    ∃ tree place, build (Cluster.writeThenRead [.parallel]) = .ok tree ∧ place ∈ tree.places ∧
      place.head.isParallel ∧
      (∀ c ∈ place.clusters (Cluster.writeThenRead [.parallel]),
        c.properties.isParallel place.head.dim ↔ (c.properties.find? place.head.dim).isSome) ∧
      (place.clusters (Cluster.writeThenRead [.parallel])).Pairwise fun a b =>
        a.IsBasic → b.IsBasic →
          (a.KeepsLevel b (place.outer.map (·.dim)) place.head.dim ↔ ∀ v p q x y,
            a.Meet b v p q x y →
              ¬Cluster.UnseenCrossing (place.outer.map (·.dim)) place.head.dim x y p q) := by
  obtain ⟨tree, place, hbuild, hplaces, hp⟩ : ∃ tree place,
      build (Cluster.writeThenRead [.parallel]) = .ok tree ∧ tree.places = [place] ∧
        place.head.isParallel := ⟨_, _, rfl, rfl, rfl⟩
  have hplace : place ∈ tree.places := hplaces ▸ List.mem_singleton.mpr rfl
  exact ⟨tree, place, hbuild, hplace, hp, parallel_loop_level hbuild hplace hp⟩

/-- `u[2 * x] = 1` without tags and `w[x] = u[x]` over a parallel `x` share a parallel loop, in
which iteration 2 reads what iteration 1 writes. -/
theorem parallel_loop_races :
    ∃ a b tree place, a = Cluster.single "x" ⟨"u", [⟨0, .singleton "x" 2⟩]⟩ (.int 1) ∧
      b = (Cluster.single "x" (.around "x" "w" 0) (.access (.around "x" "u" 0))).tagged (.basic "x")
        [.parallel] ∧
      build [a, b] = .ok tree ∧ place ∈ tree.places ∧ place.head.isParallel ∧
      place.head.dim = .basic "x" ∧ place.clusters [a, b] = [a, b] ∧
      ¬a.properties.isParallel (.basic "x") ∧ a.IsBasic ∧ b.IsBasic ∧
      ¬a.KeepsLevel b (place.outer.map (·.dim)) (.basic "x") := by
  obtain ⟨tree, place, hbuild, hplaces, hp, hdim, hclusters, houter⟩ : ∃ tree place,
      build [Cluster.single "x" ⟨"u", [⟨0, .singleton "x" 2⟩]⟩ (.int 1),
        (Cluster.single "x" (.around "x" "w" 0) (.access (.around "x" "u" 0))).tagged (.basic "x")
          [.parallel]] = .ok tree ∧
      tree.places = [place] ∧ place.head.isParallel ∧ place.head.dim = .basic "x" ∧
      (place.start, place.count) = (0, 2) ∧ place.outer = [] :=
    ⟨_, _, rfl, rfl, rfl, rfl, rfl, rfl⟩
  obtain ⟨hstart, hcount⟩ := Prod.mk.inj hclusters
  refine ⟨_, _, tree, place, rfl, rfl, hbuild, hplaces ▸ List.mem_singleton.mpr rfl, hp, hdim,
    by simp [LoopPlace.clusters, hstart, hcount], by decide, Cluster.single_isBasic _ _ _,
    (Cluster.single_isBasic _ _ _).tagged _ _, fun hk => ?_⟩
  have hlevel := hk (fun s => if s = "x_M" then 2 else 0)
    (fun s => if s = "x_M" then 2 else if s = "x" then 1 else 0)
    (fun s => if s = "x_M" ∨ s = "x" then 2 else 0) ⟨"u", [⟨0, .singleton "x" 2⟩]⟩
    (.around "x" "u" 0)
    ⟨Cluster.single_point (by simp +contextual) (by decide) (by decide),
      (Cluster.single_point (by simp +contextual) (by decide) (by decide)).tagged _ _,
      ⟨true, false, by decide, by decide, .inl rfl⟩, by decide⟩
    (by simp [houter, Agree])
  exact absurd hlevel (by decide)

end Node
end LoopNest
