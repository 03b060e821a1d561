import LoopNest.Proofs.BlockChains
import LoopNest.Proofs.KeptLoops

namespace LoopNest
namespace Fusion

/-- How a cluster is put together from others: it is one of them, or two clusters that were put
together before are joined. The merges are listed as they follow one another. -/
inductive Fused : Cluster → List Cluster → List (Cluster × Cluster) → Prop
  | input (c : Cluster) : Fused c [c] []
  | join {a b c : Cluster} {as bs : List Cluster} {left right : List (Cluster × Cluster)}
      (ha : Fused a as left) (hb : Fused b bs right) (h : join? a b = .ok (some c)) :
      Fused c (as ++ bs) (left ++ right ++ [(a, b)])

structure Assembly where
  cluster : Cluster
  inputs : List Cluster
  merges : List (Cluster × Cluster)
  fused : Fused cluster inputs merges

namespace Fused

variable {c : Cluster} {inputs : List Cluster} {merges : List (Cluster × Cluster)}

theorem inputs_ne_nil (h : Fused c inputs merges) : inputs ≠ [] := by
  induction h with
  | input => exact List.cons_ne_nil _ _
  | join _ _ _ iha _ => exact List.append_ne_nil_of_left_ne_nil iha _

/-- Every merge makes two clusters one. -/
theorem length_merges (h : Fused c inputs merges) : merges.length + 1 = inputs.length := by
  induction h with
  | input => rfl
  | join _ _ _ iha ihb =>
    simp only [List.length_append, List.length_singleton]
    omega

theorem equations (h : Fused c inputs merges) : c.equations = equationsOf inputs := by
  induction h with
  | input => exact (List.flatMap_singleton ..).symm
  | join _ _ h iha ihb =>
    have hmerged := (Merge.intro h).equationsOf_eq
    rw [equationsOf_append, ← iha, ← ihb]
    simpa [equationsOf] using hmerged

end Fused

/-- The merges make as many clusters fewer. -/
theorem length_flatMap_merges (parts : List Assembly) :
    (parts.flatMap Assembly.merges).length + parts.length =
      (parts.flatMap Assembly.inputs).length := by
  induction parts with
  | nil => rfl
  | cons p parts ih =>
    have hp := p.fused.length_merges
    simp only [List.flatMap_cons, List.length_append, List.length_cons]
    omega

structure Assembles (clusters out : List Cluster) (merged : Nat) (parts : List Assembly) :
    Prop where
  out : parts.map Assembly.cluster = out
  inputs : parts.flatMap Assembly.inputs = clusters
  merged : (parts.flatMap Assembly.merges).length = merged

/-- Clusters that are turned into others by merges of neighbours are put together from them. -/
theorem exists_assemblies (h : Rewrites Merge clusters out) : ∃ parts : List Assembly,
    parts.map Assembly.cluster = out ∧ parts.flatMap Assembly.inputs = clusters := by
  refine h.keeps (P := fun cs => ∃ parts : List Assembly, parts.map Assembly.cluster = cs ∧
    parts.flatMap Assembly.inputs = clusters) ?_ ?_
  · refine ⟨clusters.map fun c => ⟨c, [c], [], .input c⟩, ?_, ?_⟩
    · rw [List.map_map]
      exact List.map_id _
    · rw [List.flatMap_map]
      exact List.flatMap_singleton' _
  · rintro before after _ _ hmerge ⟨parts, hout, hinputs⟩
    obtain ⟨hj⟩ := hmerge
    obtain ⟨rest, afters, rfl, hrest, rfl⟩ := List.map_eq_append_iff.mp hout
    obtain ⟨befores, pair, rfl, rfl, hpair⟩ := List.map_eq_append_iff.mp hrest
    obtain ⟨p, single, rfl, rfl, hsingle⟩ := List.map_eq_cons_iff.mp hpair
    obtain ⟨q, none, rfl, rfl, hnone⟩ := List.map_eq_cons_iff.mp hsingle
    obtain rfl := List.map_eq_nil_iff.mp hnone
    refine ⟨befores ++ [⟨_, _, _, .join p.fused q.fused hj⟩] ++ afters, by simp, ?_⟩
    rw [← hinputs]
    simp

theorem joinLatest_counts (done : List Cluster) (c : Cluster) :
    Counts List.length (done.length + 1) (joinLatest done c) := by
  cases done with
  | nil => exact .pure
  | cons last earlier =>
    intro n next n' h
    obtain ⟨joined?, -, h⟩ := run_lift_bind h
    cases joined? with
    | none =>
      obtain ⟨rfl, rfl⟩ := run_pure h
      rfl
    | some joined =>
      obtain ⟨u, t, hmod, h⟩ := run_bind h
      cases hmod
      obtain ⟨rfl, rfl⟩ := run_pure h
      simp only [List.length_cons]
      omega

theorem fuse_counts (clusters : List Cluster) :
    Counts List.length clusters.length (fuse clusters) := by
  have hfold : ∀ done : List Cluster, Counts List.length (done.length + clusters.length)
      (clusters.foldlM joinLatest done) := by
    induction clusters with
    | nil => exact fun done => .pure
    | cons c clusters ih =>
      intro done n out n' h
      rw [List.foldlM_cons] at h
      obtain ⟨next, t, hnext, h⟩ := run_bind h
      have hfirst := joinLatest_counts done c n next t hnext
      have hrest := ih next t out n' h
      rw [List.length_cons]
      omega
  refine .map fun n done n' h => ?_
  have hcount := hfold [] n done n' h
  simpa using hcount

theorem callback_counts (groups : List ClusterGroup) (outer : List IterationInterval) :
    Counts (fun gs => (ClusterGroup.concat gs).length) (ClusterGroup.concat groups).length
      (callback groups outer) := by
  simp only [ClusterGroup.concat, List.length_flatMap]
  rw [← sum_runsBy ClusterGroup.loops (·.clusters.length) groups]
  refine .mapM (q := fun g : ClusterGroup => g.clusters.length) fun r _ => ?_
  obtain ⟨loops, run⟩ := r
  dsimp only
  split
  · exact .pure
  · have hfuse := fuse_counts (ClusterGroup.concat run)
    rw [ClusterGroup.concat, List.length_flatMap] at hfuse
    exact hfuse.bind fun fused => .pure

/-- The counter says how many clusters were merged away. -/
theorem apply_counts (clusters : List Cluster) :
    Counts List.length clusters.length (apply clusters) :=
  Queue.counts_processGroups callback_counts clusters

/-- A run of fusion puts clusters together, and counts the merges that this takes. -/
theorem apply_assembles {n n' : Nat} (h : (apply clusters).run n = .ok (out, n')) :
    ∃ merged parts, n' = n + merged ∧ Assembles clusters out merged parts := by
  obtain ⟨parts, hout, hinputs⟩ := exists_assemblies (apply_merges ⟨n, n', h⟩)
  have hcount := apply_counts clusters n out n' h
  have hmerges := length_flatMap_merges parts
  have hlength := congrArg List.length hout
  rw [List.length_map] at hlength
  rw [hinputs] at hmerges
  exact ⟨_, parts, by omega, hout, hinputs, rfl⟩

end Fusion

namespace IterationSpace

/-- The directions of one more space are added to those that are known. -/
theorem find?_mergeDirections {known directions : SortedMap Dimension Direction}
    {s : IterationSpace} (h : mergeDirections known s = .ok directions) (d : Dimension) :
    directions.find? d = (known.find? d).or (s.directions.find? d) := by
  rw [SortedMap.find?_entries s.directions]
  refine returns_foldlM (P := fun seen (m : SortedMap Dimension Direction) => m.find? d =
    (known.find? d).or ((seen.find? fun e => d = e.1).map Prod.snd)) (returns_ok h) (by simp) ?_
  intro seen e m next _ hm hnext
  have hstep : next.find? d = (m.find? d).or (if d = e.1 then some e.2 else none) := by
    split at hnext
    · rename_i existing hexisting
      split at hnext
      · cases hnext
        by_cases hd : d = e.1
        · rw [hd, hexisting]
          rfl
        · simp [hd]
      · cases hnext
    · rename_i hnone
      cases hnext
      rw [SortedMap.find?_insert]
      by_cases hd : d = e.1
      · rw [hd, hnone]
        simp
      · simp [hd]
  rw [hstep, hm, List.find?_append, List.find?_singleton, Option.or_assoc, Option.map_or]
  by_cases hd : d = e.1 <;> simp [hd]

/-- A dimension runs the way that the first space says that lists a direction for it. -/
theorem find?_directions_union {spaces : List IterationSpace} {s : IterationSpace}
    (h : union spaces = .ok s) (d : Dimension) :
    s.directions.find? d = spaces.findSome? (·.directions.find? d) := by
  refine returns_foldlM (P := fun seen (m : SortedMap Dimension Direction) => m.find? d =
    seen.findSome? (·.directions.find? d)) (returns_ok (union_directions h)) rfl ?_
  intro seen t m next _ hm hnext
  rw [find?_mergeDirections hnext, hm, List.findSome?_append, List.findSome?_singleton]

/-- Spaces that agree on the direction of a dimension are united in this direction. -/
theorem direction_union {s t u : IterationSpace} (h : union [s, t] = .ok u) {d : Dimension}
    (hd : t.direction d = s.direction d) : u.direction d = s.direction d := by
  unfold direction at hd ⊢
  rw [find?_directions_union h, List.findSome?_cons]
  cases hs : s.directions.find? d with
  | some dir => rfl
  | none =>
    rw [hs] at hd
    simpa using hd

/-- Spaces with the same loops traverse them the same way. -/
theorem direction_of_loops {s t : IterationSpace} (h : t.loops = s.loops) {d : Dimension}
    (hd : d ∈ s.dimensions) : t.direction d = s.direction d := by
  obtain ⟨i, hi, rfl⟩ := List.mem_map.mp hd
  have hin : (⟨i, s.direction i.dim⟩ : IterationInterval) ∈ t.loops := by
    rw [h]
    exact List.mem_map_of_mem hi
  obtain ⟨j, -, hj⟩ := List.mem_map.mp hin
  obtain ⟨rfl, hdir⟩ := IterationInterval.mk.inj hj
  exact hdir

end IterationSpace

/-- Chains lead from no loop of the cluster to one further out, also over dimensions that the nest
lacks. -/
def Cluster.Suits (c : Cluster) (chains : List (List Dimension)) : Prop :=
  ∀ a ∈ c.dimensions, ∀ b ∈ c.dimensions, Relation.TransGen (Linked chains) a b →
    Precedes c.dimensions a b

theorem Cluster.Suits.mono {c : Cluster} {chains chains' : List (List Dimension)}
    (h : c.Suits chains') (hlinked : ∀ p q, Linked chains p q → Linked chains' p q) :
    c.Suits chains :=
  fun a ha b hb hpath => h a ha b hb (Relation.TransGen.mono hlinked _ _ hpath)

theorem Cluster.suits_of_settled {c : Cluster} (h : c.ispace.Settled) : c.Suits c.chains :=
  fun _ ha _ hb hpath => IntervalGroup.build_precedes_of_path h hpath ha hb

namespace Fusion

section
variable {a b c : Cluster}

theorem join?_settled (h : join? a b = .ok (some c)) : c.ispace.Settled :=
  IntervalGroup.generate_settled (join?_intervals h)

theorem join?_linked (h : join? a b = .ok (some c)) {p q : Dimension} :
    Linked c.chains p q ↔ Linked (a.chains ++ b.chains) p q := by
  obtain ⟨intervals, -, hbuild⟩ := IntervalGroup.generate_cases (join?_intervals h)
  rw [List.flatMap_cons, List.flatMap_singleton] at hbuild
  exact IntervalGroup.linked_build hbuild

/-- The nest of joined clusters is built from the intervals of either of them. -/
theorem join?_build (h : join? a b = .ok (some c)) (hnd : a.dimensions.Nodup) :
    IntervalGroup.build a.intervals (a.chains ++ b.chains) = .ok c.ispace.intervals := by
  refine IntervalGroup.generate_union_same hnd ?_ (join?_intervals h)
  have hmap := congrArg (List.map (·.interval)) (join?_cases h).1
  have hloops : a.ispace.loops.map (·.interval) = b.ispace.loops.map (·.interval) := hmap
  rw [IterationSpace.loops_map_interval, IterationSpace.loops_map_interval] at hloops
  exact hloops.symm

/-- The loops of a joined cluster are its intervals, each traversed as before. -/
theorem join?_loops (h : join? a b = .ok (some c)) (hnd : a.dimensions.Nodup) :
    c.loops = c.intervals.map fun i => ⟨i, a.ispace.direction i.dim⟩ := by
  have hperm := IntervalGroup.build_perm (join?_build h hnd)
  obtain ⟨hloops, deps, k, -, -, hk, rfl⟩ := join?_cases h
  refine List.map_congr_left fun i hin => congrArg (IterationInterval.mk i) ?_
  have hd : i.dim ∈ a.dimensions := List.mem_map_of_mem (hperm.mem_iff.mp hin)
  exact IterationSpace.direction_union (Cluster.ofClusters_parts hk).ispace
    (IterationSpace.direction_of_loops hloops.symm hd)

/-- Joined clusters keep their loops, up to the order. -/
theorem join?_loops_perm (h : join? a b = .ok (some c)) (hnd : a.dimensions.Nodup) :
    c.loops.Perm a.loops := by
  rw [join?_loops h hnd]
  exact (IntervalGroup.build_perm (join?_build h hnd)).map _

/-- They keep the order exactly if it suits the chains of both. -/
theorem join?_loops_iff (h : join? a b = .ok (some c)) (hnd : a.dimensions.Nodup) :
    c.loops = a.loops ↔ a.Suits (a.chains ++ b.chains) := by
  refine Iff.trans ?_ (IntervalGroup.build_intervals_iff (join?_build h hnd))
  constructor
  · intro hloops
    have hmap : c.ispace.loops.map (·.interval) = a.ispace.loops.map (·.interval) :=
      congrArg (List.map (·.interval)) hloops
    rwa [IterationSpace.loops_map_interval, IterationSpace.loops_map_interval] at hmap
  · intro hintervals
    rw [join?_loops h hnd]
    exact congrArg (List.map _) hintervals

theorem join?_loops_of_dimensions (h : join? a b = .ok (some c)) (hnd : a.dimensions.Nodup)
    (hdims : c.dimensions = a.dimensions) : c.loops = a.loops := by
  refine (join?_loops_iff h hnd).mpr fun u hu v hv hpath => ?_
  rw [← hdims] at hu hv ⊢
  exact IntervalGroup.build_precedes_of_path (join?_build h hnd) hpath hu hv

end

/-- The loops of a cluster are those of all clusters that it was put together from, and those along
which dependences were measured on the way. -/
structure KeepsLoops (c : Cluster) (inputs : List Cluster) (merges : List (Cluster × Cluster)) :
    Prop where
  inputs : ∀ i ∈ inputs, c.loops = i.loops
  merges : ∀ m ∈ merges, c.loops = m.1.loops

theorem KeepsLoops.join {a b c : Cluster} {as bs : List Cluster}
    {left right : List (Cluster × Cluster)} (ha : KeepsLoops a as left)
    (hb : KeepsLoops b bs right) (h : join? a b = .ok (some c)) (hc : c.loops = a.loops) :
    KeepsLoops c (as ++ bs) (left ++ right ++ [(a, b)]) := by
  have hcb : c.loops = b.loops := hc.trans (join?_cases h).1
  constructor
  · exact List.forall_mem_append.mpr
      ⟨fun i hi => hc.trans (ha.inputs i hi), fun i hi => hcb.trans (hb.inputs i hi)⟩
  · refine List.forall_mem_append.mpr
      ⟨List.forall_mem_append.mpr ⟨fun m hm => ?_, fun m hm => ?_⟩,
        List.forall_mem_singleton.mpr hc⟩
    · exact hc.trans (ha.merges m hm)
    · exact hcb.trans (hb.merges m hm)

namespace Fused

variable {c : Cluster} {inputs : List Cluster} {merges : List (Cluster × Cluster)}

theorem settled (h : Fused c inputs merges) (hs : ∀ i ∈ inputs, i.ispace.Settled) :
    c.ispace.Settled := by
  cases h with
  | input => exact hs c List.mem_cons_self
  | join _ _ h => exact join?_settled h

theorem nodup (h : Fused c inputs merges) (hs : ∀ i ∈ inputs, i.ispace.Settled) :
    c.dimensions.Nodup := IntervalGroup.build_dimensions_nodup (h.settled hs)

theorem linked (h : Fused c inputs merges) {p q : Dimension} :
    Linked c.chains p q ↔ Linked (inputs.flatMap Cluster.chains) p q := by
  induction h with
  | input => rw [List.flatMap_singleton]
  | join _ _ h iha ihb =>
    rw [join?_linked h, linked_append, iha, ihb, List.flatMap_append, linked_append]

/-- A cluster that was put together has the loops of each of the clusters, up to the order. -/
theorem loops_perm (h : Fused c inputs merges) (hs : ∀ i ∈ inputs, i.ispace.Settled) :
    ∀ i ∈ inputs, c.loops.Perm i.loops := by
  induction h with
  | input c => exact List.forall_mem_singleton.mpr (.refl _)
  | join ha _ h iha ihb =>
    obtain ⟨hsa, hsb⟩ := List.forall_mem_append.mp hs
    have hperm := join?_loops_perm h (ha.nodup hsa)
    refine List.forall_mem_append.mpr ⟨fun i hi => ?_, fun i hi => ?_⟩
    · exact hperm.trans (iha hsa i hi)
    · exact hperm.trans ((join?_cases h).1 ▸ ihb hsb i hi)

/-- It keeps their order exactly if the order suits the chains of all. -/
theorem keepsLoops_iff (h : Fused c inputs merges) (hs : ∀ i ∈ inputs, i.ispace.Settled) :
    KeepsLoops c inputs merges ↔ ∀ i ∈ inputs, i.Suits (inputs.flatMap Cluster.chains) := by
  constructor
  · intro hkeeps i hi
    have hdims := Cluster.dimensions_eq_of_loops (hkeeps.inputs i hi)
    have hsuits := (Cluster.suits_of_settled (h.settled hs)).mono fun p q => h.linked.mpr
    rwa [Cluster.Suits, hdims] at hsuits
  · intro hsuits
    induction h with
    | input c =>
      exact ⟨List.forall_mem_singleton.mpr rfl, List.forall_mem_nil _⟩
    | @join a b c as bs left right ha hb h iha ihb =>
      obtain ⟨hsa, hsb⟩ := List.forall_mem_append.mp hs
      obtain ⟨hfirst, hsecond⟩ := List.forall_mem_append.mp hsuits
      rw [List.flatMap_append] at hfirst hsecond
      have hka := iha hsa fun i hi => (hfirst i hi).mono fun p q hp => linked_append.mpr (.inl hp)
      have hkb := ihb hsb fun i hi => (hsecond i hi).mono fun p q hp => linked_append.mpr (.inr hp)
      refine hka.join hkb h ((join?_loops_iff h (ha.nodup hsa)).mpr ?_)
      obtain ⟨i, hi⟩ := List.exists_mem_of_ne_nil as ha.inputs_ne_nil
      have hall : i.Suits (a.chains ++ b.chains) := (hfirst i hi).mono fun p q hp => by
        rw [linked_append] at hp ⊢
        exact hp.imp ha.linked.mp hb.linked.mp
      rwa [Cluster.Suits, ← Cluster.dimensions_eq_of_loops (hka.inputs i hi)] at hall

/-- Chains over dimensions of the nests alone never stand against the order. -/
theorem keepsLoops_of_closed (h : Fused c inputs merges)
    (hc : ∀ i ∈ inputs, i.ispace.intervals.Closed) :
    c.ispace.intervals.Closed ∧ KeepsLoops c inputs merges := by
  induction h with
  | input c =>
    exact ⟨hc c List.mem_cons_self, List.forall_mem_singleton.mpr rfl, List.forall_mem_nil _⟩
  | join _ _ h iha ihb =>
    obtain ⟨hca, hcb⟩ := List.forall_mem_append.mp hc
    obtain ⟨hclosed, hka⟩ := iha hca
    obtain ⟨hclosed', hkb⟩ := ihb hcb
    obtain ⟨hdims, hunion⟩ := hclosed.union hclosed'
      (Cluster.dimensions_eq_of_loops (join?_cases h).1).symm (join?_intervals h)
    have hnd := IntervalGroup.build_dimensions_nodup hclosed.settled
    exact ⟨hunion, hka.join hkb h (join?_loops_of_dimensions h hnd hdims)⟩

end Fused

/-- The nests of fused clusters. Every cluster that comes out is put together from neighbours. In
whatever way it was, it has their equations in order, and each of them had the same loops over the
same bounds in the same directions. They also stood in the same order, which is the one along which
all dependences were measured, exactly if no path along the chains of all of them leads from a loop
to one further out; so they did if chains are over dimensions of the nests alone. -/
theorem apply_keepsLoops_iff {clusters : List Cluster} {n n' : Nat}
    (hs : ∀ c ∈ clusters, c.ispace.Settled) (h : (apply clusters).run n = .ok (out, n')) :
    (∃ merged parts, n' = n + merged ∧ Assembles clusters out merged parts) ∧
      ∀ merged parts, Assembles clusters out merged parts → ∀ p ∈ parts,
        p.cluster.equations = equationsOf p.inputs ∧
        (∀ c ∈ p.inputs, p.cluster.loops.Perm c.loops) ∧
        (KeepsLoops p.cluster p.inputs p.merges ↔
          ∀ c ∈ p.inputs, c.Suits (p.inputs.flatMap Cluster.chains)) ∧
        ((∀ c ∈ p.inputs, c.ispace.intervals.Closed) →
          KeepsLoops p.cluster p.inputs p.merges) := by
  refine ⟨apply_assembles h, fun merged parts hparts p hp => ?_⟩
  have hs : ∀ i ∈ p.inputs, i.ispace.Settled := fun i hi =>
    hs i (hparts.inputs ▸ List.mem_flatMap.mpr ⟨p, hp, hi⟩)
  exact ⟨p.fused.equations, p.fused.loops_perm hs, p.fused.keepsLoops_iff hs,
    fun hc => (p.fused.keepsLoops_of_closed hc).2⟩

end Fusion

def Cluster.overPlane (lhs : Access) (rhs : Expr) (chains : List (List Dimension)) : Cluster :=
  .ofEquation ⟨lhs, rhs, .ofIntervals ⟨[.closed (.basic "x") .zero .zero,
    .closed (.basic "y") .zero .zero], .ofList chains⟩, .empty⟩ .empty

namespace Fusion

def planeWrite (chains : List (List Dimension)) : Cluster :=
  .overPlane ⟨"u", [.symbol "x", .symbol "y"]⟩ (.int 1) chains

def planeRead (chains : List (List Dimension)) : Cluster :=
  .overPlane ⟨"w", [.symbol "x", .symbol "y"]⟩
    (.access ⟨"u", [⟨-1, .singleton "x" 1⟩, ⟨1, .singleton "y" 1⟩]⟩) chains

/-- With `y` inside `x` on both sides the fused nest is the given one. -/
theorem apply_keepsLoops_plane :
    (∀ c ∈ [planeWrite [[.basic "x", .basic "y"]], planeRead [[.basic "x", .basic "y"]]],
      c.ispace.Settled) ∧
    ∃ c, (apply [planeWrite [[.basic "x", .basic "y"]], planeRead [[.basic "x", .basic "y"]]]).run
        0 = .ok ([c], 1) ∧
      c.loops = (planeWrite [[.basic "x", .basic "y"]]).loops := by
  have hclosed : ∀ c ∈ [planeWrite [[.basic "x", .basic "y"]],
      planeRead [[.basic "x", .basic "y"]]], c.ispace.intervals.Closed := by
    intro c hc
    rcases List.mem_pair.mp hc with rfl | rfl <;> exact ⟨rfl, by decide⟩
  have hsettled := fun c hc => (hclosed c hc).settled
  obtain ⟨c, hrun⟩ : ∃ c, (apply [planeWrite [[.basic "x", .basic "y"]],
      planeRead [[.basic "x", .basic "y"]]]).run 0 = .ok ([c], 1) := ⟨_, rfl⟩
  obtain ⟨⟨merged, parts, -, hparts⟩, hall⟩ := apply_keepsLoops_iff hsettled hrun
  obtain ⟨p, hsingle, rfl⟩ := List.map_eq_singleton_iff.mp hparts.out
  subst hsingle
  have hinputs := hparts.inputs
  rw [List.flatMap_singleton] at hinputs
  have hkeeps := (hall merged [p] hparts p List.mem_cons_self).2.2.2 (hinputs ▸ hclosed)
  exact ⟨hsettled, p.cluster, hrun, hkeeps.inputs _ (hinputs ▸ List.mem_cons_self)⟩

/-- With `y` outside `q` on one side and `q` outside `x` on the other, where `q` has no loop, the
fused nest has `y` outermost. The dependence was measured along `x` first; in the nest that runs,
the later cluster reads each element before the earlier one writes it. -/
theorem fused_reorders_nest :
    ∃ a b c, a = planeWrite [[.basic "y", .basic "q"]] ∧ b = planeRead [[.basic "q", .basic "x"]] ∧
      a.Settled ∧ b.Settled ∧ (apply [a, b]).run 0 = .ok ([c], 1) ∧ a.loops = b.loops ∧
      c.loops ≠ a.loops ∧
      (∃ deps, dependences a b a.loops = .ok deps ∧ ∀ dep ∈ deps, ¬dep.isReversed) ∧
      ∃ deps, dependences a b c.loops = .ok deps ∧ ∃ dep ∈ deps, dep.isReversed := by
  have hsettled : ∀ c : Cluster, c ∈ [planeWrite [[.basic "y", .basic "q"]],
      planeRead [[.basic "q", .basic "x"]]] → c.Settled := by
    intro c hc
    rcases List.mem_pair.mp hc with rfl | rfl <;>
      exact ⟨List.forall_mem_singleton.mpr ⟨rfl, rfl, List.forall_mem_nil _⟩, rfl, rfl,
        List.forall_mem_nil _⟩
  refine ⟨_, _, _, rfl, rfl, hsettled _ (by simp), hsettled _ (by simp), rfl, rfl, by decide,
    ⟨_, rfl, by decide⟩, _, rfl, ?_⟩
  decide

end Fusion
end LoopNest
