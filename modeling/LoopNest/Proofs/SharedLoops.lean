import LoopNest.Proofs.ParallelLoops

namespace LoopNest

namespace LoopPlace

def depth (place : LoopPlace) : Nat := place.outer.length

def Contains (place : LoopPlace) (i : Nat) : Prop :=
  place.start ≤ i ∧ i < place.start + place.count

/-- Two loops are not equally deep, or no leaf is inside both. -/
def Apart (place other : LoopPlace) : Prop :=
  place.depth = other.depth → ∀ i, place.Contains i → ¬other.Contains i

instance : Std.Symm Apart := ⟨fun _ _ h hdepth i hother hplace => h hdepth.symm i hplace hother⟩

/-- The loop ends before the limit only where the next cluster departs from those inside. -/
structure EndsBy (clusters : List Cluster) (place : LoopPlace) (limit : Nat) : Prop where
  inside : place.start + place.count ≤ limit
  departs : place.start + place.count < limit → ∀ c ∈ clusters[place.start + place.count]?,
    ∀ e ∈ place.clusters clusters,
      Node.Departs (e.loops.take (place.depth + 1)) (place.clusters clusters) c

/-- The clusters inside a loop that ends where another cluster starts. -/
theorem clusters_of_ends {place : LoopPlace} {before : List Cluster} (after : List Cluster)
    (hstart : place.start ≤ before.length) (hend : place.start + place.count = before.length) :
    place.clusters (before ++ after) = before.drop place.start := by
  rw [LoopPlace.clusters, List.drop_append_of_le_length hstart]
  exact List.take_left' (by rw [List.length_drop]; omega)

theorem clusters_of_contains {place : LoopPlace} {before : List Cluster} (c : Cluster)
    (after : List Cluster)
    (hstart : place.start ≤ before.length) (hin : place.Contains before.length) :
    ∃ more, place.clusters (before ++ c :: after) = before.drop place.start ++ c :: more := by
  obtain ⟨n, hn⟩ : ∃ n, place.count = (before.drop place.start).length + (n + 1) :=
    ⟨place.start + place.count - before.length - 1, by
      rw [List.length_drop]
      have hlt := hin.2
      omega⟩
  refine ⟨after.take n, ?_⟩
  rw [LoopPlace.clusters, List.drop_append_of_le_length hstart, hn, List.take_length_add_append,
    List.take_succ_cons]

end LoopPlace

namespace Node

section
variable {path : List IterationInterval} {clusters : List Cluster} {nodes : List Node}

theorem Laid.length (h : Laid path clusters nodes) (outer : List LoopHead) :
    (leavesUnderList outer nodes).length = clusters.length := by
  induction h generalizing outer with
  | nil => rfl
  | bundle _ _ ih => simp [leavesUnderList, leavesUnder, ih]
  | loop _ _ _ _ _ _ _ hbody hrest => simp [leavesUnderList, leavesUnder, hbody, hrest]

/-- The loops of code that starts with a loop. -/
theorem Laid.places_loop {body : List Node} (h : Laid path part body) (outer : List LoopHead)
    (start : Nat) (head : LoopHead) (nodes : List Node) :
    placesUnderList outer start (Node.loop head body :: nodes) =
      ⟨outer, head, start, part.length⟩ :: (placesUnderList (outer ++ [head]) start body ++
        placesUnderList outer (start + part.length) nodes) := by
  simp [placesUnderList, placesUnder, leavesUnder, h.length]

theorem places_bundle (outer : List LoopHead) (start : Nat) (equations : List Equation)
    (nodes : List Node) : placesUnderList outer start (Node.bundle equations :: nodes) =
      placesUnderList outer (start + 1) nodes := by
  simp [placesUnderList, placesUnder, leavesUnder]

theorem Laid.bounds (h : Laid path clusters nodes) (outer : List LoopHead) (start : Nat) :
    ∀ place ∈ placesUnderList outer start nodes, outer.length ≤ place.depth ∧
      start ≤ place.start ∧ place.start + place.count ≤ start + clusters.length := by
  induction h generalizing outer start with
  | nil => simp [placesUnderList]
  | bundle _ _ ih =>
    intro place hp
    rw [places_bundle] at hp
    obtain ⟨hdepth, hstart, hend⟩ := ih outer (start + 1) place hp
    rw [List.length_cons]
    omega
  | loop _ _ _ _ hlaid _ _ hbody hrest =>
    intro place hp
    rw [hlaid.places_loop, List.mem_cons, List.mem_append] at hp
    rw [List.length_append]
    rcases hp with rfl | hp | hp
    · exact ⟨Nat.le_refl _, Nat.le_refl _, by dsimp only; omega⟩
    · obtain ⟨hdepth, hstart, hend⟩ := hbody (outer ++ [_]) start place hp
      rw [List.length_append, List.length_singleton] at hdepth
      omega
    · obtain ⟨hdepth, hstart, hend⟩ := hrest outer _ place hp
      omega

/-- Loops that are equally deep do not overlap. -/
theorem Laid.apart (h : Laid path clusters nodes) (outer : List LoopHead) (start : Nat) :
    (placesUnderList outer start nodes).Pairwise LoopPlace.Apart := by
  induction h generalizing outer start with
  | nil => exact .nil
  | bundle _ _ ih =>
    rw [places_bundle]
    exact ih outer (start + 1)
  | @loop part _ _ _ head body cs ns _ _ _ _ hlaid _ hlaid' hbody hrest =>
    -- what comes later starts behind the loop
    have hlater : ∀ place : LoopPlace, place.start + place.count ≤ start + part.length →
        ∀ later ∈ placesUnderList outer (start + part.length) ns, place.Apart later := by
      intro place hend later hlater _ i hi hi'
      obtain ⟨-, hstart, -⟩ := hlaid'.bounds outer _ later hlater
      have hlt := hi.2
      have hle := hi'.1
      omega
    rw [hlaid.places_loop, List.pairwise_cons, List.pairwise_append]
    refine ⟨fun place hp => ?_, hbody _ _, hrest _ _, fun place hp => ?_⟩
    · rcases List.mem_append.mp hp with hp | hp
      · obtain ⟨hdepth, -, -⟩ := hlaid.bounds (outer ++ [head]) start place hp
        rw [List.length_append, List.length_singleton] at hdepth
        intro he
        have hsame : outer.length = place.depth := he
        omega
      · exact hlater _ (Nat.le_refl _) place hp
    · exact hlater place (hlaid.bounds (outer ++ [head]) start place hp).2.2

/-- Every cluster stands under a loop for each of its loops. -/
theorem Laid.exists_place (h : Laid path clusters nodes) (outer : List LoopHead) (start : Nat)
    {i : Nat} (houter : outer.length = path.length) (hc : clusters[i]? = some c)
    (hk : path.length ≤ k) (hlt : k < c.loops.length) :
    ∃ place ∈ placesUnderList outer start nodes, place.depth = k ∧ place.Contains (start + i) := by
  induction h generalizing outer start i with
  | nil => cases hc
  | bundle hend _ ih =>
    rw [places_bundle]
    cases i with
    | zero =>
      obtain rfl := Option.some.inj hc
      rw [hend] at hlt
      omega
    | succ i =>
      have hplace := ih outer (start + 1) houter hc hk
      rwa [Nat.add_right_comm] at hplace
  | @loop part _ _ _ head body cs ns _ _ _ _ hlaid _ _ hbody hrest =>
    rw [hlaid.places_loop]
    by_cases hi : i < part.length
    · rw [List.getElem?_append_left hi] at hc
      by_cases htop : k = outer.length
      · exact ⟨_, List.mem_cons_self, htop.symm, by dsimp only; omega, by dsimp only; omega⟩
      · obtain ⟨place, hp, hplace⟩ := hbody (outer ++ [head]) start
          (by simp [houter]) hc (by rw [List.length_append, List.length_singleton]; omega)
        exact ⟨place, List.mem_cons_of_mem _ (List.mem_append_left _ hp), hplace⟩
    · rw [List.getElem?_append_right (Nat.not_lt.mp hi)] at hc
      obtain ⟨place, hp, hdepth, hin⟩ := hrest outer (start + part.length) houter hc hk
      refine ⟨place, List.mem_cons_of_mem _ (List.mem_append_right _ hp), hdepth, ?_⟩
      rwa [Nat.add_assoc, Nat.add_sub_cancel' (Nat.not_lt.mp hi)] at hin

/-- A loop goes on as far as the loop around it, or until a cluster departs. -/
theorem Laid.ends (h : Laid path clusters nodes) {outer : List LoopHead}
    (houter : outer.length = path.length) (before after : List Cluster) :
    ∀ place ∈ placesUnderList outer before.length nodes,
      (place.depth = path.length ∧ place.EndsBy (before ++ clusters ++ after)
        (before.length + clusters.length)) ∨
      ∃ around ∈ placesUnderList outer before.length nodes, around.depth + 1 = place.depth ∧
        around.start ≤ place.start ∧ place.EndsBy (before ++ clusters ++ after)
          (around.start + around.count) := by
  induction h generalizing outer before after with
  | nil => simp [placesUnderList]
  | @bundle _ cs _ c _ _ ih =>
    intro place hp
    rw [places_bundle] at hp ⊢
    have hplace := ih houter (before ++ [c]) after place
    rw [List.length_append, List.length_singleton] at hplace
    simpa [Nat.add_assoc, Nat.add_comm 1] using hplace hp
  | @loop part path l _ head body cs ns hne hnested _ _ hlaid hdeparts _ hbody hrest =>
    intro place hp
    rw [hlaid.places_loop] at hp ⊢
    rcases List.mem_cons.mp hp with rfl | hp
    · refine .inl ⟨houter, by simp, fun hlt c hc e he => ?_⟩
      have hpart : LoopPlace.clusters ⟨outer, head, before.length, part.length⟩
          (before ++ (part ++ cs) ++ after) = part := by
        simp [LoopPlace.clusters]
      rw [hpart] at he ⊢
      have hdepth : LoopPlace.depth ⟨outer, head, before.length, part.length⟩ = path.length :=
        houter
      rw [hdepth, hnested e he]
      refine hdeparts c ?_
      cases cs with
      | nil => simp at hlt
      | cons d cs => simpa using hc
    · rcases List.mem_append.mp hp with hp | hp
      · have hlen : (outer ++ [head]).length = (path ++ [l]).length := by simp [houter]
        have hplace := hbody hlen before (cs ++ after) place hp
        simp only [List.append_assoc] at hplace ⊢
        rcases hplace with ⟨hdepth, hends⟩ | ⟨around, ha, haround⟩
        · refine .inr ⟨_, List.mem_cons_self, ?_, (hlaid.bounds _ _ place hp).2.1, hends⟩
          rw [hdepth, ← hlen, List.length_append, List.length_singleton]
          rfl
        · exact .inr ⟨around, List.mem_cons_of_mem _ (List.mem_append_left _ ha), haround⟩
      · rw [← List.length_append] at hp
        have hplace := hrest houter (before ++ part) after place hp
        simp only [List.append_assoc, List.length_append] at hplace ⊢
        rcases hplace with ⟨hdepth, hends⟩ | ⟨around, ha, haround⟩
        · exact .inl ⟨hdepth, by rwa [Nat.add_assoc] at hends⟩
        · exact .inr ⟨around, List.mem_cons_of_mem _ (List.mem_append_right _ ha), haround⟩

end

section
variable {clusters : List Cluster} {tree : Node}

/-- What the places of the loops say of all code that is laid out, said of a whole tree. -/
theorem build_places (h : build clusters = .ok tree) :
    tree.places.Pairwise LoopPlace.Apart ∧
      (∀ i c k, clusters[i]? = some c → k < c.loops.length →
        ∃ place ∈ tree.places, place.depth = k ∧ place.Contains i) ∧
      ∀ place ∈ tree.places, (place.depth = 0 ∧ place.EndsBy clusters clusters.length) ∨
        ∃ around ∈ tree.places, around.depth + 1 = place.depth ∧ around.start ≤ place.start ∧
          place.EndsBy clusters (around.start + around.count) := by
  obtain ⟨body, rfl, hlaid⟩ := build_laid h
  have hout : ([] : List LoopHead).length = ([] : List IterationInterval).length := rfl
  refine ⟨hlaid.apart [] 0, fun i c k hc hk => ?_, fun place hp => ?_⟩
  · obtain ⟨place, hp, hdepth, hin⟩ := hlaid.exists_place [] 0 hout hc (Nat.zero_le k) hk
    exact ⟨place, hp, hdepth, by rwa [Nat.zero_add] at hin⟩
  · have hplace := hlaid.ends hout [] [] place hp
    simp only [List.nil_append, List.append_nil, List.length_nil, Nat.zero_add] at hplace
    exact hplace

theorem eq_of_contains {place other : LoopPlace} (h : tree.places.Pairwise LoopPlace.Apart)
    (hp : place ∈ tree.places) (ho : other ∈ tree.places) (hdepth : place.depth = other.depth)
    (hi : place.Contains i) (hi' : other.Contains i) : place = other := by
  by_contra hne
  exact h.forall hp ho hne hdepth i hi hi'

end

end Node

def Cluster.RunsAgainst (a b : Cluster) (loops : List IterationInterval) : Prop :=
  ∃ found, dependences a b loops = .ok found ∧ ∃ dep ∈ found, dep.isReversed

namespace Node

/-- The dependences decide which clusters share a loop, and whether it can be parallel. -/
structure SharesByDependences (clusters : List Cluster) (tree : Node) : Prop where
  /-- The leaves of the tree are the clusters in order. -/
  leaves : tree.leaves.map Prod.snd = clusters.map fun c => .bundle c.equations
  /-- The loops down to a loop are those of all clusters under it. -/
  loops : ∀ place ∈ tree.places, ∀ c ∈ place.clusters clusters,
    (c.loops.take (place.depth + 1)).map (·.dim) = (place.outer ++ [place.head]).map (·.dim)
  /-- A cluster stands under exactly one loop for each of its loops. -/
  placed : ∀ i c k, clusters[i]? = some c → k < c.loops.length →
    ∃! place, place ∈ tree.places ∧ place.depth = k ∧ place.Contains i
  /-- A cluster that goes on in the loops of the one before it, all but the innermost of which they
  share, shares that one too if no dependence on the clusters already under it runs against the
  loops. -/
  shared : ∀ before a c after k, clusters = before ++ a :: c :: after → k < c.loops.length →
    a.loops.take (k + 1) = c.loops.take (k + 1) →
    (0 < k → ∃ around ∈ tree.places, around.depth + 1 = k ∧ around.Contains before.length ∧
      around.Contains (before.length + 1)) →
    ∀ place ∈ tree.places, place.depth = k → place.Contains before.length →
      (∀ e ∈ (before ++ [a]).drop place.start,
        ∃ found, dependences e c (c.loops.take (k + 1)) = .ok found) ∧
      (place.Contains (before.length + 1) ↔
        ∀ e ∈ (before ++ [a]).drop place.start, ¬e.RunsAgainst c (c.loops.take (k + 1)))
  /-- A loop that carries a dependence between clusters under it is sequential. -/
  carried : ∀ place ∈ tree.places, (place.clusters clusters).Pairwise fun a b =>
    ∃ found, dependences a b (b.loops.take (place.depth + 1)) = .ok found ∧
      ∀ dep ∈ found, ∀ d, dep.carrier? = some d → d.sharesRoot place.head.dim →
        place.head.isSequential ∧ ¬place.head.isParallel

section
variable {clusters : List Cluster} {tree : Node} {place : LoopPlace} {before : List Cluster}
  {c : Cluster}

theorem Under.depth (h : Under clusters place part path l deps) : place.depth = path.length := by
  simpa [LoopPlace.depth] using congrArg List.length h.outer

theorem Under.nested_take (h : Under clusters place part path l deps) :
    ∀ c ∈ part, c.loops.take (place.depth + 1) = path ++ [l] := by
  rw [h.depth]
  exact h.nested

/-- Under a loop no cluster depends on an earlier one against the loops. -/
theorem Under.joins (h : Under clusters place part path l deps) {more : List Cluster}
    (hpart : part = earlier ++ c :: more) : ∀ e ∈ earlier,
      (∃ found, dependences e c (c.loops.take (place.depth + 1)) = .ok found) ∧
        ¬e.RunsAgainst c (c.loops.take (place.depth + 1)) := by
  intro e he
  have hloops := h.nested_take c (by simp [hpart])
  have hshares := h.shares
  rw [hpart] at hshares
  obtain ⟨found, hfound, hall⟩ :=
    (List.pairwise_append.mp hshares).2.2 e he c List.mem_cons_self
  rw [hloops]
  refine ⟨⟨found, hfound⟩, fun hagainst => ?_⟩
  obtain ⟨found', hfound', dep, hdep, hrev⟩ := hagainst
  obtain rfl := Except.ok.inj (hfound.symm.trans hfound')
  rw [(hall dep hdep).2] at hrev
  cases hrev

theorem Opposes.runsAgainst {loops : List IterationInterval} {part : List Cluster}
    (h : Opposes loops part c) :
    (∀ e ∈ part, ∃ found, dependences e c loops = .ok found) ∧
      ∃ e ∈ part, e.RunsAgainst c loops := by
  obtain ⟨found, hfound, hrev⟩ := h
  have hall := returns_mapM (returns_ok hfound)
  refine ⟨fun e he => ?_, ?_⟩
  · obtain ⟨deps, -, hdeps⟩ := exists_of_forall₂ hall he
    exact ⟨deps, hdeps⟩
  · obtain ⟨dep, hdep, hrev⟩ := List.any_eq_true.mp hrev
    obtain ⟨deps, hin, hdep⟩ := List.mem_flatten.mp hdep
    obtain ⟨e, he, hdeps⟩ := exists_of_forall₂ hall.flip hin
    exact ⟨e, he, deps, hdeps, dep, hdep, hrev⟩

/-- A loop that could go on over the next cluster, but does not, has one of the clusters in it that
the next one depends on against the loops. -/
theorem opposes_of_ends {before after : List Cluster} {limit : Nat}
    (hends : place.EndsBy (before ++ a :: c :: after) limit)
    (hin : place.Contains before.length) (hout : ¬place.Contains (before.length + 1))
    (hlimit : before.length + 1 < limit)
    (hkey : a.loops.take (place.depth + 1) = c.loops.take (place.depth + 1))
    (hdeep : place.depth < c.loops.length) :
    Opposes (c.loops.take (place.depth + 1)) ((before ++ [a]).drop place.start) c := by
  have hlen : (before ++ [a]).length = before.length + 1 := List.length_append
  have hend : place.start + place.count = before.length + 1 := by
    have hle := hin.2
    have hge := Nat.not_lt.mp fun hlt => hout ⟨Nat.le_succ_of_le hin.1, hlt⟩
    omega
  have hstart : place.start ≤ (before ++ [a]).length := hlen ▸ Nat.le_succ_of_le hin.1
  have hmembers := LoopPlace.clusters_of_ends (c :: after) hstart (hend.trans hlen.symm)
  have ha : a ∈ (before ++ [a]).drop place.start := by
    rw [List.drop_append_of_le_length hin.1]
    simp
  have hdeparts := hends.departs (by omega)
  rw [hend, List.append_cons, hmembers, ← hlen, List.getElem?_append_right (Nat.le_refl _)]
    at hdeparts
  have hc := hdeparts c (by simp) a ha
  rw [hkey] at hc
  refine hc.resolve_left fun hne => hne ?_
  rw [List.length_take_of_le hdeep]

section
variable {after : List Cluster} (h : build (before ++ a :: c :: after) = .ok tree)
  (hp : place ∈ tree.places) (hin : place.Contains before.length)
include h hp hin

theorem joins_of_contains (hnext : place.Contains (before.length + 1)) :
    ∀ e ∈ (before ++ [a]).drop place.start,
      (∃ found, dependences e c (c.loops.take (place.depth + 1)) = .ok found) ∧
        ¬e.RunsAgainst c (c.loops.take (place.depth + 1)) := by
  obtain ⟨part, path, l, deps, hu⟩ := (build_cases h).2 place hp
  have hlen : (before ++ [a]).length = before.length + 1 := List.length_append
  obtain ⟨more, hpart⟩ := LoopPlace.clusters_of_contains c after
    (hlen ▸ Nat.le_succ_of_le hin.1) (hlen ▸ hnext)
  rw [← List.append_cons] at hpart
  exact hu.joins (hu.part_eq.trans hpart)

theorem opposes_of_not_contains (hnext : ¬place.Contains (before.length + 1))
    (hkey : a.loops.take (place.depth + 1) = c.loops.take (place.depth + 1))
    (hdeep : place.depth < c.loops.length)
    (haround : 0 < place.depth → ∃ around ∈ tree.places, around.depth + 1 = place.depth ∧
      around.Contains before.length ∧ around.Contains (before.length + 1)) :
    Opposes (c.loops.take (place.depth + 1)) ((before ++ [a]).drop place.start) c := by
  obtain ⟨hapart, -, hends⟩ := build_places h
  rcases hends place hp with ⟨-, hend⟩ | ⟨around, ha, hdepth, hle, hend⟩
  · exact opposes_of_ends hend hin hnext (by simp) hkey hdeep
  · -- both clusters are inside the loop around, up to whose end the loop could go on
    obtain ⟨around', ha', hdepth', hin', hnext'⟩ := haround (by omega)
    have hinside : around.Contains before.length :=
      ⟨Nat.le_trans hle hin.1, Nat.lt_of_lt_of_le hin.2 hend.inside⟩
    obtain rfl := eq_of_contains hapart ha ha' (by omega) hinside hin'
    exact opposes_of_ends hend hin hnext hnext'.2 hkey hdeep

end

/-- A loop with a dependence to carry is sequential. -/
theorem Under.runsInOrder (h : Under clusters place part path l deps) (hdep : dep ∈ deps)
    (hcarrier : dep.carrier? = some d) (hroot : d.sharesRoot place.head.dim) :
    place.head.isSequential ∧ ¬place.head.isParallel := by
  rw [h.dim] at hroot
  have hcarried := List.mem_filterMap.mpr ⟨dep, hdep, hcarrier⟩
  have hruns := Properties.runsInOrder_narrow (part.foldl (fun p c => p.merge c.properties)
    Properties.empty) (List.mem_singleton.mpr rfl) hcarried hroot
  rw [LoopHead.isSequential, LoopHead.isParallel, h.tags]
  exact ⟨hruns.sequential, Bool.eq_false_iff.mp hruns.notParallel⟩

end

/-- The builder shares loops exactly as far as the dependences allow, and a loop that is to carry a
dependence between clusters under it is sequential. -/
theorem build_shares {clusters : List Cluster} {tree : Node} (h : build clusters = .ok tree) :
    SharesByDependences clusters tree := by
  refine ⟨(build_cases h).1, fun place hp c hc => ?_, fun i c k hc hk => ?_, ?_, fun place hp => ?_⟩
  · obtain ⟨part, path, l, deps, hu⟩ := (build_cases h).2 place hp
    rw [LoopPlace.clusters, ← hu.part_eq] at hc
    rw [hu.nested_take c hc, List.map_append, List.map_append, hu.outer]
    exact congrArg (fun d => path.map (·.dim) ++ [d]) hu.dim.symm
  · obtain ⟨hapart, hexists, -⟩ := build_places h
    obtain ⟨place, hp, hdepth, hin⟩ := hexists i c k hc hk
    refine ⟨place, ⟨hp, hdepth, hin⟩, fun other ho => ?_⟩
    exact eq_of_contains hapart ho.1 hp (ho.2.1.trans hdepth.symm) ho.2.2 hin
  · rintro before a c after k rfl hk hkey haround place hp rfl hin
    by_cases hnext : place.Contains (before.length + 1)
    · have hjoins := joins_of_contains h hp hin hnext
      exact ⟨fun e he => (hjoins e he).1, fun _ e he => (hjoins e he).2, fun _ => hnext⟩
    · obtain ⟨hmeasured, e, he, hagainst⟩ :=
        (opposes_of_not_contains h hp hin hnext hkey hk haround).runsAgainst
      exact ⟨hmeasured, fun hin => absurd hin hnext, fun hnone => absurd hagainst (hnone e he)⟩
  · obtain ⟨part, path, l, deps, hu⟩ := (build_cases h).2 place hp
    rw [LoopPlace.clusters, ← hu.part_eq]
    refine hu.shares.imp_of_mem ?_
    intro a b _ hb hshares
    obtain ⟨found, hfound, hall⟩ := hshares
    rw [hu.nested_take b hb]
    exact ⟨found, hfound, fun dep hdep d => hu.runsInOrder (hall dep hdep).1⟩

/-- Over a parallel `x`, `u[x] = 1` and `v[x] = u[x - 1]` share a loop, which has to carry what the
second reads. `w[x] = u[x + 1]` reads ahead of the first and gets a parallel loop of its own. -/
theorem build_shares_readAround :
    ∃ clusters tree, clusters = [("u", Expr.int 1), ("v", .access (.around "x" "u" (-1))),
        ("w", .access (.around "x" "u" 1))].map (fun e =>
          (Cluster.single "x" (.around "x" e.1 0) e.2).tagged (.basic "x") [.parallel]) ∧
      build clusters = .ok tree ∧
      tree.places.map (fun p => (p.depth, p.start, p.count)) = [(0, 0, 2), (0, 2, 1)] ∧
      tree.places.map (fun p => (p.head.isSequential, p.head.isParallel)) =
        [(true, false), (false, true)] ∧
      SharesByDependences clusters tree := by
  obtain ⟨tree, hbuild, hplaces⟩ : ∃ tree, build ([("u", Expr.int 1),
      ("v", .access (.around "x" "u" (-1))), ("w", .access (.around "x" "u" 1))].map fun e =>
        (Cluster.single "x" (.around "x" e.1 0) e.2).tagged (.basic "x") [.parallel]) = .ok tree ∧
      tree.places.map (fun p => (p.depth, p.start, p.count)) = [(0, 0, 2), (0, 2, 1)] ∧
      tree.places.map (fun p => (p.head.isSequential, p.head.isParallel)) =
        [(true, false), (false, true)] := ⟨_, rfl, rfl, rfl⟩
  exact ⟨_, tree, rfl, hbuild, hplaces.1, hplaces.2, build_shares hbuild⟩

end Node
end LoopNest
