import LoopNest.Proofs.QueueRuns
import LoopNest.Tree.Build

namespace LoopNest

/-- A loop where it stands in a tree: the loops around it, the number of leaves before it and the
number of leaves inside. -/
structure LoopPlace where
  outer : List LoopHead
  head : LoopHead
  start : Nat
  count : Nat

namespace Node

mutual

def placesUnder (outer : List LoopHead) (start : Nat) : Node → List LoopPlace
  | loop head body =>
    ⟨outer, head, start, (leavesUnderList (outer ++ [head]) body).length⟩ ::
      placesUnderList (outer ++ [head]) start body
  | bundle _ | call _ => []
  | list nodes => placesUnderList outer start nodes
  | routine _ _ body => placesUnderList outer start body

def placesUnderList (outer : List LoopHead) (start : Nat) : List Node → List LoopPlace
  | [] => []
  | n :: ns =>
    n.placesUnder outer start ++ placesUnderList outer (start + (n.leavesUnder outer).length) ns

end

def places (n : Node) : List LoopPlace := n.placesUnder [] 0

theorem leavesUnderList_append (outer : List LoopHead) (ns ms : List Node) :
    leavesUnderList outer (ns ++ ms) = leavesUnderList outer ns ++ leavesUnderList outer ms := by
  induction ns with
  | nil => simp [leavesUnderList]
  | cons n ns ih => simp [leavesUnderList, ih]

theorem placesUnderList_append (outer : List LoopHead) (start : Nat) (ns ms : List Node) :
    placesUnderList outer start (ns ++ ms) = placesUnderList outer start ns ++
      placesUnderList outer (start + (leavesUnderList outer ns).length) ms := by
  induction ns generalizing start with
  | nil => simp [placesUnderList, leavesUnderList]
  | cons n ns ih =>
    simp [placesUnderList, leavesUnderList, ih, Nat.add_assoc]

def Shares (loops : List IterationInterval) (part : List Cluster) (deps : List Distance) : Prop :=
  part.Pairwise fun a b => ∃ found, dependences a b loops = .ok found ∧
    ∀ dep ∈ found, dep ∈ deps ∧ dep.isReversed = false

def Opposes (loops : List IterationInterval) (part : List Cluster) (c : Cluster) : Prop :=
  ∃ found, part.mapM (dependences · c loops) = .ok found ∧ found.flatten.any Distance.isReversed

/-- A cluster joins the latest part with what it depends on there, or starts a part if it opposes
that one or there is none. -/
theorem addToParts_cases {loops : List IterationInterval}
    {parts next : List (List Cluster × List Distance)} (h : addToParts loops parts c = .ok next) :
    next = ([c], []) :: parts ∧ (∀ p ∈ parts.head?, Opposes loops p.1 c) ∨
      ∃ part deps done found, parts = (part, deps) :: done ∧
        part.mapM (dependences · c loops) = .ok found ∧
        (∀ dep ∈ found.flatten, dep.isReversed = false) ∧
        next = (part ++ [c], deps ++ found.flatten) :: done := by
  cases parts with
  | nil =>
    cases h
    exact .inl ⟨rfl, by simp⟩
  | cons p done =>
    obtain ⟨part, deps⟩ := p
    obtain ⟨found, hf, h⟩ := Returns.of_bind (returns_ok h)
    split at h
    · rename_i hrev
      refine .inl ⟨Returns.of_pure h, fun p hp => ?_⟩
      obtain rfl := Option.some.inj hp
      exact ⟨found, hf, hrev⟩
    · rename_i hnone
      refine .inr ⟨part, deps, done, found, rfl, hf, fun dep hdep => ?_, Returns.of_pure h⟩
      exact Bool.eq_false_iff.mpr fun hr => hnone (List.any_eq_true.mpr ⟨dep, hdep, hr⟩)

theorem Shares.snoc {loops : List IterationInterval} {part : List Cluster} {deps : List Distance}
    {found : List (List Distance)} (h : Shares loops part deps)
    (hf : part.mapM (dependences · c loops) = .ok found)
    (hfree : ∀ dep ∈ found.flatten, dep.isReversed = false) :
    Shares loops (part ++ [c]) (deps ++ found.flatten) := by
  refine List.pairwise_append.mpr ⟨h.imp ?_, List.pairwise_singleton _ _, ?_⟩
  · intro a b hshare
    obtain ⟨ds, hds, hall⟩ := hshare
    exact ⟨ds, hds, fun dep hd => ⟨List.mem_append_left _ (hall dep hd).1, (hall dep hd).2⟩⟩
  · intro a ha b hb
    rw [List.mem_singleton.mp hb]
    obtain ⟨ds, hin, hds⟩ := exists_of_forall₂ (returns_mapM (returns_ok hf)) ha
    refine ⟨ds, hds, fun dep hd => ?_⟩
    have hdep : dep ∈ found.flatten := List.mem_flatten.mpr ⟨ds, hin, hd⟩
    exact ⟨List.mem_append_right _ hdep, hfree dep hdep⟩

theorem addToParts_shares {loops : List IterationInterval}
    {parts next : List (List Cluster × List Distance)}
    (h : addToParts loops parts c = .ok next) (hp : ∀ p ∈ parts, Shares loops p.1 p.2) :
    (∀ p ∈ next, Shares loops p.1 p.2) ∧
      next.reverse.flatMap Prod.fst = parts.reverse.flatMap Prod.fst ++ [c] := by
  rcases addToParts_cases h with ⟨rfl, -⟩ | ⟨part, deps, done, found, rfl, hf, hfree, rfl⟩
  · exact ⟨List.forall_mem_cons.mpr ⟨List.pairwise_singleton _ _, hp⟩, by simp⟩
  · obtain ⟨hpart, hdone⟩ := List.forall_mem_cons.mp hp
    exact ⟨List.forall_mem_cons.mpr ⟨hpart.snoc hf hfree, hdone⟩, by simp⟩

structure Cut (loops : List IterationInterval) (parts : List (List Cluster × List Distance)) :
    Prop where
  nonempty : ∀ p ∈ parts, p.1 ≠ []
  opposes : parts.IsChain fun p q => ∀ c ∈ q.1.head?, Opposes loops p.1 c

theorem addToParts_cut {loops : List IterationInterval}
    {parts next : List (List Cluster × List Distance)}
    (h : addToParts loops parts c = .ok next) (hp : Cut loops parts.reverse) :
    Cut loops next.reverse := by
  obtain ⟨hne, hopp⟩ := hp
  have hne := fun p hp => hne p (List.mem_reverse.mpr hp)
  rw [List.isChain_reverse] at hopp
  rcases addToParts_cases h with ⟨rfl, hfirst⟩ | ⟨part, deps, done, found, rfl, -, -, rfl⟩
  · refine ⟨fun p hp => ?_, List.isChain_reverse.mpr (hopp.cons fun p hp c' hc' => ?_)⟩
    · exact List.forall_mem_cons.mpr ⟨by simp, hne⟩ p (List.mem_reverse.mp hp)
    · obtain rfl := Option.some.inj hc'
      exact hfirst p hp
  · obtain ⟨hpart, hne⟩ := List.forall_mem_cons.mp hne
    refine ⟨fun p hp => ?_, List.isChain_reverse.mpr ?_⟩
    · exact List.forall_mem_cons.mpr ⟨by simp, hne⟩ p (List.mem_reverse.mp hp)
    -- the part has grown at its end, the cluster that it starts with is the same
    · cases done with
      | nil => exact .singleton _
      | cons q done =>
        obtain ⟨hhead, hopp⟩ := List.isChain_cons_cons.mp hopp
        refine .cons_cons (fun c' hc' => hhead c' ?_) hopp
        rwa [List.head?_append_of_ne_nil _ hpart] at hc'

/-- A run is cut into parts that each can share the loops, wherever a cluster opposes those before
it. -/
theorem share_cases {loops : List IterationInterval} {parts : List (List Cluster × List Distance)}
    (h : share loops run = .ok parts) :
    parts.flatMap Prod.fst = run ∧ (∀ p ∈ parts, Shares loops p.1 p.2) ∧ Cut loops parts := by
  obtain ⟨done, hd, rfl⟩ := returns_map (returns_ok h)
  have hinv := returns_foldlM (P := fun seen (done : List (List Cluster × List Distance)) =>
    (∀ p ∈ done, Shares loops p.1 p.2) ∧ done.reverse.flatMap Prod.fst = seen ∧
      Cut loops done.reverse) hd ⟨by simp, rfl, by simp, .nil⟩ ?_
  · exact ⟨hinv.2.1, fun p hp => hinv.1 p (List.mem_reverse.mp hp), hinv.2.2⟩
  · intro seen c done next _ hdone hnext
    obtain ⟨hdone, rfl, hcut⟩ := hdone
    obtain ⟨hshares, hflat⟩ := addToParts_shares hnext hdone
    exact ⟨hshares, hflat, addToParts_cut hnext hcut⟩

structure Under (clusters : List Cluster) (place : LoopPlace) (part : List Cluster)
    (path : List IterationInterval) (l : IterationInterval) (deps : List Distance) : Prop where
  stands : ∃ before after, clusters = before ++ part ++ after ∧ place.start = before.length ∧
    place.count = part.length
  outer : place.outer.map (·.dim) = path.map (·.dim)
  dim : place.head.dim = l.dim
  tags : place.head.properties = sharedTags part deps l.dim
  nested : ∀ c ∈ part, c.loops.take (path.length + 1) = path ++ [l]
  shares : Shares (path ++ [l]) part deps

theorem Under.part_eq (h : Under clusters place part path l deps) :
    part = (clusters.drop place.start).take place.count := by
  obtain ⟨before, after, rfl, hs, hc⟩ := h.stands
  simp [hs, hc, List.append_assoc]

structure Built (outer : List LoopHead) (clusters : List Cluster) (nodes : List Node) : Prop where
  leaves : (leavesUnderList outer nodes).map Prod.snd = clusters.map fun c => .bundle c.equations
  places : ∀ before after, ∀ place ∈ placesUnderList outer before.length nodes,
    ∃ part path l deps, Under (before ++ clusters ++ after) place part path l deps

namespace Built

theorem nil (outer : List LoopHead) : Built outer [] [] where
  leaves := rfl
  places := by simp [placesUnderList]

theorem length {nodes : List Node} (h : Built outer cs nodes) :
    (leavesUnderList outer nodes).length = cs.length := by
  simpa using congrArg List.length h.leaves

theorem append {ns ms : List Node} (h : Built outer cs ns) (h' : Built outer ds ms) :
    Built outer (cs ++ ds) (ns ++ ms) where
  leaves := by
    rw [leavesUnderList_append, List.map_append, h.leaves, h'.leaves, List.map_append]
  places before after place hp := by
    rw [placesUnderList_append, h.length] at hp
    rcases List.mem_append.mp hp with hp | hp
    · have hu := h.places before (ds ++ after) place hp
      simpa only [List.append_assoc] using hu
    · rw [← List.length_append] at hp
      have hu := h'.places (before ++ cs) after place hp
      simpa only [List.append_assoc] using hu

theorem bundle (outer : List LoopHead) (c : Cluster) :
    Built outer [c] [.bundle c.equations] where
  leaves := rfl
  places := by simp [placesUnderList, placesUnder]

/-- A loop around code that is built for clusters with that loop in common. -/
theorem loop {head : LoopHead} {body : List Node} (h : Built (outer ++ [head]) part body)
    (hu : ∀ before after, Under (before ++ part ++ after)
      ⟨outer, head, before.length, part.length⟩ part path l deps) :
    Built outer part [.loop head body] where
  leaves := by simpa [leavesUnderList, leavesUnder] using h.leaves
  places before after place hp := by
    simp only [placesUnderList, placesUnder, List.append_nil] at hp
    rcases List.mem_cons.mp hp with rfl | hp
    · rw [h.length]
      exact ⟨part, path, l, deps, hu before after⟩
    · exact h.places before after place hp

end Built

theorem headOf_cases (h : headOf l tags = .ok head) :
    head.dim = l.dim ∧ head.properties = tags := by
  obtain ⟨extent, -, h⟩ := Returns.of_bind (returns_ok h)
  split at h
  · rw [Returns.of_pure h]
    exact ⟨rfl, rfl⟩
  · cases h

/-- A common prefix that goes one loop further ends in that loop. -/
theorem key_eq_append {loops : List IterationInterval} (hpath : loops.take depth = path)
    (hkey : loops.take (depth + 1) = key) (hl : key[depth]? = some l) : key = path ++ [l] := by
  rw [← hkey, List.getElem?_take_of_lt (Nat.lt_succ_self depth)] at hl
  rw [← hkey, ← hpath, List.take_add_one, hl, Option.toList_some]

def Departs (loops : List IterationInterval) (part : List Cluster) (c : Cluster) : Prop :=
  c.loops.take loops.length ≠ loops ∨ Opposes loops part c

/-- The code of clusters inside the loops of a path: clusters that go no deeper are code as they
stand, and a loop is around as many of the clusters as can share it. -/
inductive Laid : List IterationInterval → List Cluster → List Node → Prop
  | nil (path : List IterationInterval) : Laid path [] []
  | bundle : c.loops = path → Laid path cs ns → Laid path (c :: cs) (bundle c.equations :: ns)
  | loop : part ≠ [] → (∀ c ∈ part, c.loops.take (path.length + 1) = path ++ [l]) →
    Shares (path ++ [l]) part deps → headOf l (sharedTags part deps l.dim) = .ok head →
    Laid (path ++ [l]) part body → (∀ c ∈ cs.head?, Departs (path ++ [l]) part c) →
    Laid path cs ns → Laid path (part ++ cs) (loop head body :: ns)

section
variable {path : List IterationInterval}

/-- Clusters without further loops are a sequence of bundles. -/
theorem Laid.bundles (hpath : ∀ c ∈ clusters, c.loops.take path.length = path)
    (hend : ∀ c ∈ clusters, c.loops.length ≤ path.length) :
    Laid path clusters (clusters.map fun c => Node.bundle c.equations) := by
  induction clusters with
  | nil => exact .nil path
  | cons c cs ih =>
    obtain ⟨hc, hpath⟩ := List.forall_mem_cons.mp hpath
    obtain ⟨hcend, hend⟩ := List.forall_mem_cons.mp hend
    rw [List.take_of_length_le hcend] at hc
    exact .bundle hc (ih hpath hend)

/-- Code in sequence, where the clusters of the second part do not run in the loop that the first
part ends with. -/
theorem Laid.append {cs ds : List Cluster} {ns ms : List Node} (h : Laid path cs ns)
    (h' : Laid path ds ms) (hne : ∀ d ∈ ds.head?, ∀ c ∈ cs,
      c.loops.take (path.length + 1) ≠ d.loops.take (path.length + 1)) :
    Laid path (cs ++ ds) (ns ++ ms) := by
  induction h with
  | nil => exact h'
  | bundle hc _ ih =>
    exact .bundle hc (ih h' fun d hd c hc => hne d hd c (List.mem_cons_of_mem _ hc))
  | @loop part path l deps head body cs ns hpart hnested hshares hhead hbody hdeparts _ _ ih =>
    rw [List.append_assoc]
    refine .loop hpart hnested hshares hhead hbody (fun c hc => ?_)
      (ih h' fun d hd c hc => hne d hd c (List.mem_append_right _ hc))
    cases cs with
    | nil =>
      obtain ⟨e, he⟩ := List.exists_mem_of_ne_nil part hpart
      refine .inl fun hc' => hne c hc e (List.mem_append_left _ he) ?_
      rw [hnested e he, ← hc', List.length_append, List.length_singleton]
    | cons c' cs => exact hdeparts c hc

/-- The parts of a run, each inside the loop of the run. -/
theorem Laid.parts {parts : List (List Cluster × List Distance)} {ns : List Node}
    (hcut : Cut (path ++ [l]) parts)
    (h : List.Forall₂ (fun p n => (∀ c ∈ p.1, c.loops.take (path.length + 1) = path ++ [l]) ∧
      Shares (path ++ [l]) p.1 p.2 ∧ ∃ head body, n = Node.loop head body ∧
        headOf l (sharedTags p.1 p.2 l.dim) = .ok head ∧ Laid (path ++ [l]) p.1 body) parts ns) :
    Laid path (parts.flatMap Prod.fst) ns := by
  obtain ⟨hne, hopp⟩ := hcut
  induction h with
  | nil => exact .nil path
  | @cons p n parts ns hp _ ih =>
    obtain ⟨hnested, hshares, head, body, rfl, hhead, hbody⟩ := hp
    obtain ⟨hpart, hne⟩ := List.forall_mem_cons.mp hne
    refine .loop hpart hnested hshares hhead hbody (fun c hc => .inr ?_) (ih hne hopp.tail)
    cases parts with
    | nil => cases hc
    | cons q parts =>
      obtain ⟨hq, -⟩ := List.forall_mem_cons.mp hne
      have hc : c ∈ (q.1 ++ parts.flatMap Prod.fst).head? := hc
      rw [List.head?_append_of_ne_nil _ hq] at hc
      exact (List.isChain_cons_cons.mp hopp).1 c hc

/-- Runs of neighbours, each of which runs in other loops than the next. -/
theorem Laid.runs {runs : List (List IterationInterval × List Cluster)} {nss : List (List Node)}
    (hchain : runs.IsChain fun r s => r.1 ≠ s.1)
    (hrun : ∀ r ∈ runs, r.2 ≠ [] ∧ ∀ c ∈ r.2, c.loops.take (path.length + 1) = r.1)
    (h : List.Forall₂ (fun r ns => Laid path r.2 ns) runs nss) :
    Laid path (runs.flatMap Prod.snd) nss.flatten := by
  induction h with
  | nil => exact .nil path
  | @cons r ns runs nss hr _ ih =>
    obtain ⟨⟨-, hkey⟩, hrun⟩ := List.forall_mem_cons.mp hrun
    refine hr.append (ih hchain.tail hrun) fun d hd c hc => ?_
    cases runs with
    | nil => cases hd
    | cons s runs =>
      obtain ⟨⟨hs, hkey'⟩, -⟩ := List.forall_mem_cons.mp hrun
      have hd : d ∈ (s.2 ++ runs.flatMap Prod.snd).head? := hd
      rw [List.head?_append_of_ne_nil _ hs] at hd
      rw [hkey c hc, hkey' d (List.mem_of_head? hd)]
      exact (List.isChain_cons_cons.mp hchain).1

/-- All code that is built is laid out so. -/
theorem nest_laid {nodes : List Node} (h : nest levels path.length clusters = .ok nodes)
    (hpath : ∀ c ∈ clusters, c.loops.take path.length = path)
    (hlevels : ∀ c ∈ clusters, c.loops.length ≤ path.length + levels) :
    Laid path clusters nodes := by
  induction levels generalizing path clusters nodes with
  | zero =>
    cases h
    exact .bundles hpath hlevels
  | succ levels ih =>
    obtain ⟨processed, hp, h⟩ := Returns.of_bind (returns_ok h)
    rw [Returns.of_pure h, ← runsBy_flatMap (fun c : Cluster => c.loops.take (path.length + 1))
      clusters]
    refine .runs (runsBy_chain _ _) (fun r hr => run_of_mem_runsBy hr)
      (((List.forall₂_and_left _ _).mpr ⟨fun r hr => hr, returns_mapM hp⟩).imp ?_)
    intro r ns hr
    obtain ⟨key, run⟩ := r
    obtain ⟨hmem, hrun⟩ := hr
    obtain ⟨hne, hkey⟩ := run_of_mem_runsBy hmem
    have hsub := mem_of_mem_runsBy hmem
    dsimp only at hrun
    split at hrun
    · rename_i hend
      cases hrun
      refine .bundles (fun c hc => hpath c (hsub c hc)) fun c hc => ?_
      rw [List.getElem?_eq_none_iff, ← hkey c hc, List.length_take] at hend
      omega
    · rename_i l hl
      obtain ⟨c, hc⟩ := List.exists_mem_of_ne_nil run hne
      obtain rfl := key_eq_append (hpath c (hsub c hc)) (hkey c hc) hl
      obtain ⟨parts, hparts, hrun⟩ := Returns.of_bind hrun
      obtain ⟨hflat, hshares, hcut⟩ := share_cases hparts
      rw [← hflat]
      have hall := (List.forall₂_and_left _ _).mpr ⟨fun p hp => hp, returns_mapM hrun⟩
      refine .parts hcut (hall.imp ?_)
      intro p n hp
      obtain ⟨part, deps⟩ := p
      obtain ⟨hpart, hn⟩ := hp
      have hin : ∀ c ∈ part, c ∈ run := by
        rw [← hflat]
        exact fun c hc => List.mem_flatMap.mpr ⟨_, hpart, hc⟩
      obtain ⟨body, hbody, hn⟩ := Returns.of_bind hn
      obtain ⟨head, hhead, hn⟩ := Returns.of_bind hn
      have hlen : (path ++ [l]).length = path.length + 1 := List.length_append
      refine ⟨fun c hc => hkey c (hin c hc), hshares _ hpart, head, body, Returns.of_pure hn, hhead,
        ih ?_ ?_ ?_⟩
      · rw [hlen]
        exact hbody
      · intro c hc
        rw [hlen]
        exact hkey c (hin c hc)
      · intro c hc
        have hle := hlevels c (hsub c (hin c hc))
        omega

end

theorem build_laid {tree : Node} (h : build clusters = .ok tree) :
    ∃ body, tree = routine kernelName (parameters body) body ∧ Laid [] clusters body := by
  obtain ⟨body, hbody, h⟩ := Returns.of_bind (returns_ok h)
  have hbody : nest _ ([] : List IterationInterval).length clusters = .ok body := hbody
  exact ⟨body, Returns.of_pure h, nest_laid hbody (by simp)
    fun c hc => by simpa using Queue.length_le_maxDepth hc⟩

theorem Laid.built {outer : List LoopHead} {nodes : List Node} (h : Laid path clusters nodes)
    (houter : outer.map (·.dim) = path.map (·.dim)) : Built outer clusters nodes := by
  induction h generalizing outer with
  | nil => exact Built.nil outer
  | bundle _ _ ih => exact (Built.bundle outer _).append (ih houter)
  | @loop part path l deps head body cs ns _ hnested hshares hhead _ _ _ hbody hrest =>
    obtain ⟨hdim, htags⟩ := headOf_cases hhead
    have hb : Built (outer ++ [head]) part body := hbody (by simp [houter, hdim])
    have hunder : ∀ before after, Under (before ++ part ++ after)
        ⟨outer, head, before.length, part.length⟩ part path l deps := fun before after => {
      stands := ⟨before, after, rfl, rfl, rfl⟩
      outer := houter
      dim := hdim
      tags := htags
      nested := hnested
      shares := hshares }
    exact (hb.loop hunder).append (hrest houter)

/-- The leaves of a tree are the clusters it is built from, and every loop of it is the common loop
of those under it. -/
theorem build_cases {tree : Node} (h : build clusters = .ok tree) :
    tree.leaves.map Prod.snd = clusters.map (fun c => .bundle c.equations) ∧
      ∀ place ∈ tree.places, ∃ part path l deps, Under clusters place part path l deps := by
  obtain ⟨body, rfl, hlaid⟩ := build_laid h
  have hb : Built [] clusters body := hlaid.built rfl
  refine ⟨hb.leaves, fun place hp => ?_⟩
  simpa using hb.places [] [] place hp

end Node
end LoopNest
