import LoopNest.Pipeline
import LoopNest.Proofs.Maps
import LoopNest.Proofs.QueueRuns
import Mathlib.Data.List.TakeWhile

namespace LoopNest

def Equation.Independent (e f : Equation) : Prop :=
  e.write ≠ f.write ∧ e.write ∉ f.reads.toList ∧ f.write ∉ e.reads.toList

theorem Equation.Independent.symm {e f : Equation} (h : e.Independent f) : f.Independent e := by
  obtain ⟨hww, hwr, hrw⟩ := h
  exact ⟨hww.symm, hrw, hwr⟩

def Cluster.Independent (a b : Cluster) : Prop :=
  ∀ e ∈ a.equations, ∀ f ∈ b.equations, e.Independent f

theorem Cluster.Independent.symm {a b : Cluster} (h : a.Independent b) : b.Independent a := by
  intro f hf e he
  exact (h e he f hf).symm

inductive Exchange : List Cluster → List Cluster → Prop
  | intro {as bs : List Cluster} (h : ∀ a ∈ as, ∀ b ∈ bs, a.Independent b) :
    Exchange (as ++ bs) (bs ++ as)

inductive Merge : List Cluster → List Cluster → Prop
  | intro {a b c : Cluster} (h : Fusion.join? a b = .ok (some c)) : Merge [a, b] [c]

inductive Block : List Cluster → List Cluster → Prop
  | intro {b : Blocking} {c c' : Cluster} {d : Dimension} (ht : c.properties.isTilable d)
    (h : returns (b.block c d) c') : Block [c] [c']

inductive Promote : List Cluster → List Cluster → Prop
  | intro {c c' : Cluster} {pos target : Nat} (hle : target ≤ pos)
    (h : Interchange.moveLoop c pos target = .ok c') : Promote [c] [c']

inductive Split : List Cluster → List Cluster → Prop
  | intro {c : Cluster} {cs : List Cluster} (h : returns (Remainder.splitCluster c) cs) :
    Split [c] cs

inductive Regroup : List Cluster → List Cluster → Prop
  | exchange {xs ys : List Cluster} (h : Exchange xs ys) : Regroup xs ys
  | merge {xs ys : List Cluster} (h : Merge xs ys) : Regroup xs ys

/-- Any of the moves; whether clusters are split is left open. -/
inductive Move (splits : Prop) : List Cluster → List Cluster → Prop
  | exchange {xs ys : List Cluster} (h : Exchange xs ys) : Move splits xs ys
  | merge {xs ys : List Cluster} (h : Merge xs ys) : Move splits xs ys
  | block {xs ys : List Cluster} (h : Block xs ys) : Move splits xs ys
  | promote {xs ys : List Cluster} (h : Promote xs ys) : Move splits xs ys
  | split {xs ys : List Cluster} (hs : splits) (h : Split xs ys) : Move splits xs ys

namespace ClusterGroup

def Conflicts (g h : ClusterGroup) : Prop :=
  ∃ a ∈ g.clusters, ∃ b ∈ h.clusters, ¬a.Independent b

theorem mem_writes {g : ClusterGroup} {array : String} :
    array ∈ g.writes.toList ↔ ∃ c ∈ g.clusters, ∃ e ∈ c.equations, e.write = array := by
  simp only [writes, Cluster.writes, SortedSet.mem_ofList, List.mem_flatMap, List.mem_map]

theorem mem_reads {g : ClusterGroup} {array : String} :
    array ∈ g.reads.toList ↔ ∃ c ∈ g.clusters, ∃ e ∈ c.equations, array ∈ e.reads.toList := by
  simp only [reads, Cluster.reads, SortedSet.mem_ofList, List.mem_flatMap]

theorem dependsOn_iff {g h : ClusterGroup} : g.dependsOn h = true ↔ g.Conflicts h := by
  have hdisjoint : g.dependsOn h = false ↔ ∀ a ∈ g.clusters, ∀ b ∈ h.clusters, a.Independent b := by
    simp only [dependsOn, Bool.or_eq_false_iff, Bool.not_eq_false', SortedSet.disjoint_iff,
      mem_writes, mem_reads]
    constructor
    · rintro ⟨⟨hwr, hrw⟩, hww⟩ a ha b hb e he f hf
      refine ⟨fun heq => hww _ ⟨a, ha, e, he, rfl⟩ ⟨b, hb, f, hf, heq.symm⟩, fun hread => ?_,
        fun hread => ?_⟩
      · exact hwr _ ⟨a, ha, e, he, rfl⟩ ⟨b, hb, f, hf, hread⟩
      · exact hrw _ ⟨a, ha, e, he, hread⟩ ⟨b, hb, f, hf, rfl⟩
    · intro hi
      refine ⟨⟨?_, ?_⟩, ?_⟩
      · rintro _ ⟨a, ha, e, he, rfl⟩ ⟨b, hb, f, hf, hread⟩
        exact (hi a ha b hb e he f hf).2.1 hread
      · rintro _ ⟨a, ha, e, he, hread⟩ ⟨b, hb, f, hf, rfl⟩
        exact (hi a ha b hb e he f hf).2.2 hread
      · rintro _ ⟨a, ha, e, he, rfl⟩ ⟨b, hb, f, hf, heq⟩
        exact (hi a ha b hb e he f hf).1 heq.symm
  rw [← not_iff_not, Bool.not_eq_true, hdisjoint, Conflicts]
  push Not
  rfl

end ClusterGroup

namespace Toposort

/-- A group stays last, or it is put behind the latest group under its loops, past others that it
does not conflict with. -/
theorem place_cases (done : List ClusterGroup) (g : ClusterGroup) :
    (place done g).1 = g :: done ∧
        (∀ between h earlier, done = between ++ h :: earlier → h.loops = g.loops →
          (∀ k ∈ between, k.loops ≠ g.loops) → between = [] ∨ ∃ k ∈ between, g.Conflicts k) ∨
      ∃ passed h earlier, done = passed ++ h :: earlier ∧ h.loops = g.loops ∧
        (∀ k ∈ passed, k.loops ≠ g.loops ∧ ¬g.Conflicts k) ∧
        (place done g).1 = passed ++ g :: h :: earlier := by
  have hpassed : ∀ {between h earlier}, done = between ++ h :: earlier → h.loops = g.loops →
      (∀ k ∈ between, k.loops ≠ g.loops) → done.takeWhile (·.loops ≠ g.loops) = between := by
    rintro between h earlier rfl hloops hfree
    rw [List.takeWhile_append_of_pos fun k hk => decide_eq_true (hfree k hk),
      List.takeWhile_cons_of_neg (by simpa using hloops), List.append_nil]
  have hall := List.takeWhile_append_dropWhile (p := fun k : ClusterGroup => k.loops ≠ g.loops)
    (l := done)
  unfold place
  dsimp only
  split
  · rename_i hstays
    refine .inl ⟨rfl, fun between h earlier hdone hloops hfree => ?_⟩
    rw [hpassed hdone hloops hfree] at hstays hall
    have hrest : done.dropWhile (·.loops ≠ g.loops) ≠ [] := by
      intro hnil
      rw [hnil, List.append_nil, hdone] at hall
      simp at hall
    simp only [Bool.or_eq_true, List.isEmpty_iff, List.any_eq_true, hrest, or_false,
      ClusterGroup.dependsOn_iff] at hstays
    exact hstays
  · rename_i hmoves
    simp only [Bool.or_eq_true, not_or, List.any_eq_true, not_exists, not_and,
      ClusterGroup.dependsOn_iff, List.isEmpty_iff] at hmoves
    obtain ⟨⟨-, hrest⟩, hfree⟩ := hmoves
    have hhead := List.head_dropWhile_not (fun k : ClusterGroup => k.loops ≠ g.loops) hrest
    obtain ⟨h, earlier, hcons⟩ := List.exists_cons_of_ne_nil hrest
    simp only [hcons, List.head_cons] at hall hhead ⊢
    refine .inr ⟨_, h, earlier, hall.symm, by simpa using hhead, fun k hk => ⟨?_, hfree k hk⟩, rfl⟩
    simpa using List.mem_takeWhile_imp hk

/-- A placed group only passes groups that it does not depend on. -/
theorem place_exchanges (done : List ClusterGroup) (g : ClusterGroup) :
    Rewrites Exchange (ClusterGroup.concat (done.reverse ++ [g]))
      (ClusterGroup.concat (place done g).1.reverse) := by
  rcases place_cases done g with ⟨hplace, -⟩ | ⟨passed, h, earlier, rfl, -, hfree, hplace⟩
  · rw [hplace, List.reverse_cons]
    exact Rewrites.refl _
  · rw [hplace]
    simp only [ClusterGroup.concat, List.reverse_append, List.reverse_cons, List.flatMap_append,
      List.flatMap_cons, List.flatMap_nil, List.append_nil, List.append_assoc]
    refine Rewrites.append_left _ (Rewrites.append_left _ (Rewrites.of (.intro ?_)))
    intro a ha b hb
    obtain ⟨k, hk, ha⟩ := List.mem_flatMap.mp ha
    by_contra hdep
    exact (hfree k (List.mem_reverse.mp hk)).2 ⟨b, hb, a, ha, fun hi => hdep hi.symm⟩

theorem step_exchanges (groups : List ClusterGroup) (state : List ClusterGroup × Nat) :
    Rewrites Exchange (ClusterGroup.concat (state.1.reverse ++ groups))
      (ClusterGroup.concat (groups.foldl step state).1.reverse) := by
  induction groups generalizing state with
  | nil =>
    rw [List.append_nil]
    exact Rewrites.refl _
  | cons g groups ih =>
    have hplace := (place_exchanges state.1 g).append_right (ClusterGroup.concat groups)
    rw [List.append_cons]
    simp only [ClusterGroup.concat, List.flatMap_append] at hplace ih ⊢
    exact hplace.trans (ih (step state g))

theorem apply_exchanges (h : returns (apply clusters) out) : Rewrites Exchange clusters out := by
  refine Queue.returns_processGroups (fun groups outer r hr => ?_) h
  obtain ⟨n, -, hr⟩ := Returns.of_bind hr
  obtain ⟨-, -, hr⟩ := Returns.of_bind hr
  rw [Returns.of_pure hr]
  exact step_exchanges groups ([], n)

end Toposort

section
variable {spaces : List IterationSpace} {s : IterationSpace}

theorem IterationSpace.union_intervals (h : union spaces = .ok s) :
    IntervalGroup.generate .union (spaces.map (·.intervals)) = .ok s.intervals := by
  obtain ⟨group, hg, h⟩ := Returns.of_bind (returns_ok h)
  obtain ⟨directions, -, h⟩ := Returns.of_bind h
  rw [Returns.of_pure h]
  exact hg

theorem IterationSpace.union_directions (h : union spaces = .ok s) :
    spaces.foldlM mergeDirections .empty = .ok s.directions := by
  obtain ⟨group, -, h⟩ := Returns.of_bind (returns_ok h)
  obtain ⟨directions, hd, h⟩ := Returns.of_bind h
  rw [Returns.of_pure h]
  exact hd

end

structure Cluster.Unites (c first : Cluster) (rest : List Cluster) : Prop where
  equations : c.equations = (first :: rest).flatMap Cluster.equations
  ispace : IterationSpace.union ((first :: rest).map Cluster.ispace) = .ok c.ispace
  dspace : DataSpace.union ((first :: rest).map Cluster.dspace) = .ok c.dspace
  properties : c.properties = rest.foldl (fun p c => p.merge c.properties) first.properties

theorem Cluster.ofClusters_parts {c first : Cluster} {rest : List Cluster}
    (h : ofClusters (first :: rest) = .ok c) : c.Unites first rest := by
  obtain ⟨ispace, hi, h⟩ := Returns.of_bind (returns_ok h)
  obtain ⟨dspace, hd, h⟩ := Returns.of_bind h
  rw [Returns.of_pure h]
  exact ⟨rfl, hi, hd, rfl⟩

namespace Fusion

/-- What merging two clusters takes: the same loops, and no dependence that is unknown or runs
against them. -/
theorem join?_cases (h : join? a b = .ok (some c)) :
    a.loops = b.loops ∧ ∃ deps k, dependences a b a.loops = .ok deps ∧
      (∀ dep ∈ deps, dep.isUnknown = false ∧ dep.isReversed = false) ∧
      Cluster.ofClusters [a, b] = .ok k ∧
      c = { k with properties := k.properties.narrow k.dimensions deps } := by
  unfold join? at h
  split at h
  · cases h
  rename_i hsame
  obtain ⟨deps, hd, h⟩ := Returns.of_bind (returns_ok h)
  split at h
  · cases Returns.of_pure h
  rename_i hfree
  have hdeps : ∀ dep ∈ deps, dep.isUnknown = false ∧ dep.isReversed = false := by
    simpa [not_or] using hfree
  split at h
  · rename_i k hk
    cases Returns.of_pure h
    exact ⟨not_not.mp fun hne => hsame (.inl hne), deps, k, hd, hdeps, hk, rfl⟩
  · split at h
    · cases Returns.of_pure h
    · cases h

/-- The intervals of merged clusters are united. -/
theorem join?_intervals (h : join? a b = .ok (some c)) :
    IntervalGroup.generate .union [a.ispace.intervals, b.ispace.intervals] =
      .ok c.ispace.intervals := by
  obtain ⟨-, deps, k, -, -, hk, rfl⟩ := join?_cases h
  exact IterationSpace.union_intervals (Cluster.ofClusters_parts hk).ispace

/-- Their tags are merged and narrowed by the dependences from one to the other. -/
theorem join?_properties (h : join? a b = .ok (some c)) :
    ∃ deps, dependences a b a.loops = .ok deps ∧
      (∀ dep ∈ deps, dep.isUnknown = false ∧ dep.isReversed = false) ∧
      c.properties = (a.properties.merge b.properties).narrow c.dimensions deps := by
  obtain ⟨-, deps, k, hdeps, hfree, hk, rfl⟩ := join?_cases h
  refine ⟨deps, hdeps, hfree, ?_⟩
  rw [(Cluster.ofClusters_parts hk).properties]
  rfl

theorem joinLatest_merges (h : returns (joinLatest done c) next) :
    Rewrites Merge (done.reverse ++ [c]) next.reverse := by
  cases done with
  | nil =>
    rw [Returns.of_pure h]
    exact Rewrites.refl _
  | cons last earlier =>
    obtain ⟨joined?, hj, h⟩ := Returns.of_bind h
    have hj := returns_lift hj
    cases joined? with
    | none =>
      rw [Returns.of_pure h]
      simp only [List.reverse_cons]
      exact Rewrites.refl _
    | some joined =>
      obtain ⟨-, -, h⟩ := Returns.of_bind h
      rw [Returns.of_pure h]
      simp only [List.reverse_cons, List.append_assoc]
      exact Rewrites.append_left _ (Rewrites.of (.intro hj))

theorem fuse_merges (h : returns (fuse clusters) out) : Rewrites Merge clusters out := by
  obtain ⟨done, hd, rfl⟩ := returns_map h
  refine returns_foldlM (P := fun seen done => Rewrites Merge seen done.reverse) hd
    (Rewrites.refl []) ?_
  intro seen c done next _ hdone hnext
  exact (hdone.append_right [c]).trans (joinLatest_merges hnext)

theorem apply_merges (h : returns (apply clusters) out) : Rewrites Merge clusters out := by
  refine Queue.returns_processGroups (fun groups outer r hr => ?_) h
  have hall := Rewrites.flatMap (R := Merge) (f := fun kr => ClusterGroup.concat kr.2)
    (g := ClusterGroup.clusters) ((returns_mapM hr).imp fun kr g hg => ?_)
  · rwa [← runsBy_flatMap ClusterGroup.loops groups, ClusterGroup.concat, List.flatMap_assoc]
  · obtain ⟨loops, run⟩ := kr
    dsimp only at hg
    split at hg
    · rw [Returns.of_pure hg, ClusterGroup.concat, List.flatMap_singleton]
      exact Rewrites.refl _
    · obtain ⟨fused, hf, hg⟩ := Returns.of_bind hg
      rw [Returns.of_pure hg]
      exact fuse_merges hf

end Fusion

theorem Rewrites.each {R : List Cluster → List Cluster → Prop} {cs cs' : List Cluster}
    (h : List.Forall₂ (fun c c' => Rewrites R [c] [c']) cs cs') : Rewrites R cs cs' := by
  have hall := Rewrites.flatMap (f := fun c => [c]) (g := fun c => [c]) h
  rwa [List.flatMap_singleton', List.flatMap_singleton'] at hall

namespace Blocking

/-- What blocking a dimension changes: the loops over it, which are put in order by a chain, and its
tags. The state takes note of the blocks. -/
theorem block_run_cases {b : Blocking} {s s' : State} (h : (b.block c d).run s = .ok (c', s')) :
    ∃ blocks last i ispace, b.blocksOver d (s.blocked.count d) = .ok blocks ∧
      pointsWithin d blocks = .ok last ∧ c.ispace.intervals.find? d = some i ∧
      c.ispace.expand d (blockIntervals i (blocks ++ [last]))
        ((blocks ++ [last]) :: levelChains (blocks ++ [last]) c.dimensions) = .ok ispace ∧
      c' = { c with ispace, properties := inheritTags c.properties d (blocks ++ [last]) } ∧
      s' = ⟨d :: s.blocked, s.created ++ blocks⟩ := by
  obtain ⟨state, t, hstate, hrun⟩ := run_bind h
  cases hstate
  obtain ⟨blocks, hb, hrun⟩ := run_lift_bind hrun
  obtain ⟨last, hl, hrun⟩ := run_lift_bind hrun
  cases hi : c.ispace.intervals.find? d with
  | none =>
    simp only [hi] at hrun
    obtain ⟨i, t, hfail, -⟩ := run_bind hrun
    cases hfail
  | some i =>
    simp only [hi, pure_bind] at hrun
    obtain ⟨ispace, hs, hrun⟩ := run_lift_bind hrun
    cases hrun
    exact ⟨blocks, last, i, ispace, hb, hl, rfl, mapError_ok hs, rfl, rfl⟩

theorem block_cases {b : Blocking} (h : returns (b.block c d) c') :
    ∃ n blocks last i ispace, b.blocksOver d n = .ok blocks ∧
      pointsWithin d blocks = .ok last ∧ c.ispace.intervals.find? d = some i ∧
      c.ispace.expand d (blockIntervals i (blocks ++ [last]))
        ((blocks ++ [last]) :: levelChains (blocks ++ [last]) c.dimensions) = .ok ispace ∧
      c' = { c with ispace, properties := inheritTags c.properties d (blocks ++ [last]) } := by
  obtain ⟨s, s', h⟩ := h
  obtain ⟨blocks, last, i, ispace, hb, hl, hi, hs, hc, -⟩ := block_run_cases h
  exact ⟨_, blocks, last, i, ispace, hb, hl, hi, hs, hc⟩

inductive Step (b : Blocking) : List Cluster → List Cluster → Prop
  | intro {c c' : Cluster} {d : Dimension} (hw : b.wants c d) (h : returns (b.block c d) c') :
    Step b [c] [c']

theorem isTilable_of_wants {b : Blocking} (h : b.wants c d) : c.properties.isTilable d :=
  (Bool.and_eq_true_iff.mp h).1

/-- The callback goes over the clusters of a run, along the innermost of their shared loops. -/
theorem callback_cases {b : Blocking} (h : returns (b.callback clusters outer) out) :
    (outer = [] ∧ out = clusters) ∨ ∃ l, outer.getLast? = some l ∧
      List.Forall₂ (fun c c' => if b.wants c l.dim then returns (b.block c l.dim) c' else c' = c)
        clusters out := by
  unfold callback at h
  split at h
  · rename_i hnone
    exact .inl ⟨List.getLast?_eq_none_iff.mp hnone, Returns.of_pure h⟩
  · rename_i l hl
    refine .inr ⟨l, hl, (returns_mapM h).imp fun c c' hc => ?_⟩
    by_cases hw : b.wants c l.dim
    · rwa [if_pos hw] at hc ⊢
    · rw [if_neg hw] at hc ⊢
      exact Returns.of_pure hc

theorem callback_steps {b : Blocking} (h : returns (b.callback clusters outer) out) :
    Rewrites b.Step clusters out := by
  rcases callback_cases h with ⟨-, rfl⟩ | ⟨l, -, hall⟩
  · exact Rewrites.refl _
  · refine Rewrites.each (hall.imp fun c c' hc => ?_)
    split at hc
    · rename_i hw
      exact Rewrites.of (.intro hw hc)
    · rw [hc]
      exact Rewrites.refl _

theorem apply_steps {b : Blocking} (h : returns (b.apply clusters) out) :
    Rewrites b.Step clusters out := by
  unfold apply at h
  split at h
  · rw [Returns.of_pure h]
    exact Rewrites.refl _
  · exact Queue.returns_applyFirst (Rewrites.partwise b.Step) (fun _ _ _ => callback_steps) h

theorem apply_blocks {b : Blocking} (h : returns (b.apply clusters) out) :
    Rewrites Block clusters out :=
  (apply_steps h).mono fun _ _ ⟨hw, h⟩ => .of (.intro (isTilable_of_wants hw) h)

/-- Blocking takes every cluster through blockings of single dimensions. -/
theorem apply_pointwise {b : Blocking} (h : returns (b.apply clusters) out) :
    List.Forall₂ (Relation.ReflTransGen fun c c' => ∃ d, b.wants c d ∧ returns (b.block c d) c')
      clusters out :=
  (apply_steps h).pointwise fun _ _ ⟨hw, h⟩ => ⟨_, _, rfl, rfl, _, hw, h⟩

end Blocking

namespace Interchange

/-- What moving a loop changes: the intervals, which are grouped anew. -/
theorem moveLoop_cases (h : moveLoop c pos target = .ok c') :
    ∃ chains group, IntervalGroup.build (c.ispace.intervals.intervals.take target ++
        c.ispace.intervals.intervals[pos]?.toList ++
        (c.ispace.intervals.intervals.take pos).drop target ++
        c.ispace.intervals.intervals.drop (pos + 1)) chains = .ok group ∧
      c' = { c with ispace := c.ispace.withIntervals group } := by
  obtain ⟨group, hg, h⟩ := Returns.of_bind (returns_ok h)
  exact ⟨_, group, hg, Returns.of_pure h⟩

inductive Promotion : List Cluster → List Cluster → Prop
  | intro {c c' : Cluster} {outer : List IterationInterval} {floor : Nat}
    (h : promote? c outer floor = .ok (some c')) : Promotion [c] [c']

/-- A loop is promoted if it has no dependence component, past as many of the loops outside it as
are neither parallel nor of its family. -/
theorem promote?_cases (h : promote? c outer floor = .ok (some c')) :
    ∃ d pos, c.properties.isParallelIndep d ∧ c.ispace.intervals.indexOf? d = some pos ∧
      hops c d floor pos ≠ 0 ∧ moveLoop c pos (pos - hops c d floor pos) = .ok c' := by
  unfold promote? at h
  split at h
  · cases h
  rename_i l _
  split at h
  · cases h
  rename_i hindep
  split at h
  · cases h
  rename_i pos hpos
  dsimp only at h
  split at h
  · cases h
  rename_i hn
  obtain ⟨moved, hm, he⟩ := returns_map (returns_ok h)
  cases he
  exact ⟨l.dim, pos, by simpa using hindep, hpos, hn, hm⟩

theorem Promotion.promote {xs ys : List Cluster} (h : Promotion xs ys) : Promote xs ys := by
  obtain ⟨h⟩ := h
  obtain ⟨d, pos, -, -, -, hm⟩ := promote?_cases h
  exact .intro (Nat.sub_le _ _) hm

theorem callback_promotions (h : returns (callback clusters outer) out) :
    Rewrites Promotion clusters out := by
  obtain ⟨-, -, h⟩ := Returns.of_bind h
  split at h
  · rename_i c
    obtain ⟨state, -, h⟩ := Returns.of_bind h
    obtain ⟨promoted?, hp, h⟩ := Returns.of_bind h
    have hp := mapError_ok (returns_lift hp)
    cases promoted? with
    | none =>
      rw [Returns.of_pure h]
      exact Rewrites.refl _
    | some promoted =>
      obtain ⟨-, -, h⟩ := Returns.of_bind h
      rw [Returns.of_pure h]
      exact Rewrites.of (.intro hp)
  · rw [Returns.of_pure h]
    exact Rewrites.refl _

theorem apply_promotions (h : returns (apply clusters) out) : Rewrites Promotion clusters out := by
  obtain ⟨-, -, h⟩ := Returns.of_bind h
  exact Queue.returns_applyFirst (Rewrites.partwise Promotion) (fun _ _ _ => callback_promotions) h

end Interchange

/-- An equation joins the latest cluster, which is over its space, or starts a new one. -/
theorem Cluster.addEquation_cases {properties : Properties} {acc next : List Cluster}
    {e : Equation} (h : addEquation properties acc e = .ok next) :
    next = ofEquation e (properties.retain (· ∈ e.ispace.dimensions)) :: acc ∨
      ∃ latest earlier dspace, acc = latest :: earlier ∧ latest.ispace = e.ispace ∧
        next = { latest with equations := latest.equations ++ [e], dspace } :: earlier := by
  unfold addEquation at h
  dsimp only at h
  split at h
  · cases h
    exact .inl rfl
  · split at h
    · rename_i hsame
      obtain ⟨dspace, -, h⟩ := Returns.of_bind (returns_ok h)
      exact .inr ⟨_, _, dspace, rfl, hsame, Returns.of_pure h⟩
    · cases h
      exact .inl rfl

/-- Every cluster has equations, and the tags of its dimensions. -/
theorem Cluster.clusterize_members {equations : List Equation} {properties : Properties}
    (h : clusterize equations properties = .ok cs) :
    ∀ c ∈ cs, c.equations ≠ [] ∧ c.properties = properties.retain (· ∈ c.dimensions) := by
  obtain ⟨latestFirst, hfold, rfl⟩ := returns_map (returns_ok h)
  have hall := returns_foldlM (P := fun _ acc => ∀ c ∈ acc, c.equations ≠ [] ∧
    c.properties = properties.retain (· ∈ c.dimensions)) hfold (List.forall_mem_nil _) ?_
  · exact fun c hc => hall c (List.mem_reverse.mp hc)
  · intro done e acc next _ hacc hnext
    rcases addEquation_cases hnext with rfl | ⟨latest, earlier, dspace, rfl, -, rfl⟩
    · exact List.forall_mem_cons.mpr ⟨⟨by simp [ofEquation], rfl⟩, hacc⟩
    · rw [List.forall_mem_cons] at hacc
      exact List.forall_mem_cons.mpr ⟨⟨by simp, hacc.1.2⟩, hacc.2⟩

/-- A cluster stays as it is, or its equations change and are grouped anew. -/
theorem Remainder.splitCluster_cases {c : Cluster} {cs : List Cluster}
    (h : returns (splitCluster c) cs) :
    cs = [c] ∨ ∃ d parts, c.dimensions.find? (diverges c) = some d ∧
      returns (decompose c.equations d) parts ∧ parts ≠ c.equations ∧
      Cluster.clusterize parts (inheritTags c.properties d parts) = .ok cs := by
  unfold splitCluster at h
  split at h
  · exact .inl (Returns.of_pure h)
  split at h
  · exact .inl (Returns.of_pure h)
  rename_i d hd
  obtain ⟨parts, hparts, h⟩ := Returns.of_bind h
  split at h
  · exact .inl (Returns.of_pure h)
  rename_i hne
  exact .inr ⟨d, parts, hd, hparts, hne, mapError_ok (returns_lift h)⟩

theorem Remainder.apply_splits (h : returns (Remainder.apply clusters) out) :
    Rewrites Split clusters out := by
  obtain ⟨parts, hp, rfl⟩ := returns_map h
  have hall := Rewrites.flatMap (f := fun c => [c]) (g := id)
    ((returns_mapM hp).imp fun c cs hc => Rewrites.of (Split.intro hc))
  rwa [List.flatMap_singleton', List.flatMap_id] at hall

namespace Pipeline

/-- What each of the passes runs. Those that reorder or merge clusters, move loops or split clusters
create no blocks. -/
theorem runPass_cases {pass : String} (h : runPass c pass clusters = .ok r) :
    (pass ∈ ["toposort", "fuse", "topofuse"] ∧ r.2 = [] ∧ Rewrites Regroup clusters r.1) ∨
    (pass = "blocking" ∧ ∃ state, (Blocking.apply ⟨c.blockLevels, c.blockInner⟩ clusters).run
      .empty = .ok (r.1, state) ∧ r.2 = state.created) ∨
    (pass = "interchange" ∧ r.2 = [] ∧ Rewrites Interchange.Promotion clusters r.1) ∨
    (pass = "remainder" ∧ r.2 = [] ∧ returns (Remainder.apply clusters) r.1) := by
  have hx : ∀ {xs}, Rewrites Regroup xs ((Toposort.apply xs).run 0).1 :=
    (Toposort.apply_exchanges ⟨0, _, rfl⟩).mono fun _ _ h => .of (.exchange h)
  have hf : ∀ {xs ys : List Cluster} {n n' : Nat}, (Fusion.apply xs).run n = .ok (ys, n') →
      Rewrites Regroup xs ys := fun h =>
    (Fusion.apply_merges ⟨_, _, h⟩).mono fun _ _ h => .of (.merge h)
  have h := returns_ok h
  unfold runPass at h
  split at h
  · rw [Returns.of_pure h]
    exact .inl ⟨by simp, rfl, hx⟩
  · obtain ⟨⟨out, n⟩, hrun, h⟩ := Returns.of_bind h
    rw [Returns.of_pure h]
    exact .inl ⟨by simp, rfl, hf hrun⟩
  · obtain ⟨⟨out, n⟩, hrun, h⟩ := Returns.of_bind h
    rw [Returns.of_pure h]
    exact .inl ⟨by simp, rfl, hx.trans (hf hrun)⟩
  · obtain ⟨⟨out, state⟩, hrun, h⟩ := Returns.of_bind h
    rw [Returns.of_pure h]
    exact .inr (.inl ⟨rfl, state, hrun, rfl⟩)
  · obtain ⟨⟨out, state⟩, hrun, h⟩ := Returns.of_bind h
    rw [Returns.of_pure h]
    exact .inr (.inr (.inl ⟨rfl, rfl, Interchange.apply_promotions ⟨_, _, hrun⟩⟩))
  · obtain ⟨⟨out, state⟩, hrun, h⟩ := Returns.of_bind h
    rw [Returns.of_pure h]
    exact .inr (.inr (.inr ⟨rfl, rfl, _, _, hrun⟩))
  · cases h

theorem runPass_moves {pass : String} (h : runPass c pass clusters = .ok r) :
    Rewrites (Move (pass = "remainder")) clusters r.1 := by
  rcases runPass_cases h with ⟨-, -, h⟩ | ⟨-, state, h, -⟩ | ⟨-, -, h⟩ | ⟨hpass, -, h⟩
  · refine h.mono fun xs ys hr => .of ?_
    cases hr with
    | exchange h => exact .exchange h
    | merge h => exact .merge h
  · exact (Blocking.apply_blocks ⟨_, _, h⟩).mono fun _ _ h => .of (.block h)
  · exact h.mono fun _ _ h => .of (.promote h.promote)
  · exact (Remainder.apply_splits h).mono fun _ _ h => .of (.split hpass h)

theorem addPass_moves {pass : String} (h : addPass c done pass = .ok next) :
    Rewrites (Move (pass = "remainder")) done.clusters next.clusters := by
  obtain ⟨r, hr, h⟩ := Returns.of_bind (returns_ok h)
  rw [Returns.of_pure h]
  exact runPass_moves (mapError_ok hr)

/-- The result of a run is reached by moves, of which only the passes it selects split clusters. -/
theorem run_moves (h : run c clusters = .ok out) :
    Rewrites (Move ("remainder" ∈ c.mode.passes)) clusters out.clusters := by
  obtain ⟨-, -, h⟩ := Returns.of_bind (returns_ok h)
  obtain ⟨done, hd, h⟩ := Returns.of_bind h
  have hout : out.clusters = done.clusters := by
    split at h <;> rw [Returns.of_pure h]
  rw [hout]
  refine returns_foldlM (P := fun _ (done : Outcome) =>
    Rewrites (Move ("remainder" ∈ c.mode.passes)) clusters done.clusters) hd (Rewrites.refl _) ?_
  intro _ pass done next hpass hdone hnext
  refine hdone.trans ((addPass_moves hnext).mono fun xs ys hm => .of ?_)
  cases hm with
  | exchange h => exact .exchange h
  | merge h => exact .merge h
  | block h => exact .block h
  | promote h => exact .promote h
  | split hs h => exact .split (hs ▸ hpass) h

end Pipeline
end LoopNest
