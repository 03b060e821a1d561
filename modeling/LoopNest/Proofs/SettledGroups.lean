import LoopNest.Proofs.EquationOrder
import LoopNest.Proofs.GroupOrder

namespace LoopNest

def IterationSpace.Settled (s : IterationSpace) : Prop := s.intervals.Settled

def DataSpace.Settled (s : DataSpace) : Prop :=
  s.intervals.Settled ∧ ∀ e ∈ s.parts.entries, e.2.Settled

def Equation.Settled (e : Equation) : Prop := e.ispace.Settled ∧ e.dspace.Settled

structure Cluster.Settled (c : Cluster) : Prop where
  equations : ∀ e ∈ c.equations, e.Settled
  ispace : c.ispace.Settled
  dspace : c.dspace.Settled

theorem IntervalGroup.generate_settled {how : Combination} {groups : List IntervalGroup}
    {g : IntervalGroup} (h : generate how groups = .ok g) : g.Settled := by
  obtain ⟨intervals, -, h⟩ := Returns.of_bind (returns_ok h)
  exact build_settled h

theorem IntervalGroup.expand_settled {g g' : IntervalGroup} {d : Dimension} {new : List Interval}
    {extra : List (List Dimension)} (h : g.expand d new extra = .ok g') : g'.Settled := by
  unfold expand at h
  split at h
  · cases h
  · cases h
  · exact build_settled h

theorem IterationSpace.union_settled {spaces : List IterationSpace} {s : IterationSpace}
    (h : union spaces = .ok s) : s.Settled :=
  IntervalGroup.generate_settled (union_intervals h)

theorem IterationSpace.expand_settled {s s' : IterationSpace} {d : Dimension}
    {new : List Interval} {extra : List (List Dimension)} (h : s.expand d new extra = .ok s') :
    s'.Settled := by
  obtain ⟨g, hg, h⟩ := Returns.of_bind (returns_ok h)
  rw [Returns.of_pure h]
  exact IntervalGroup.expand_settled hg

theorem DataSpace.union_settled {spaces : List DataSpace} {s : DataSpace}
    (h : union spaces = .ok s) : s.Settled := by
  obtain ⟨g, hg, h⟩ := Returns.of_bind (returns_ok h)
  obtain ⟨parts, hp, h⟩ := Returns.of_bind h
  rw [Returns.of_pure h]
  refine ⟨IntervalGroup.generate_settled hg, fun e he => ?_⟩
  have hin := SortedMap.mem_of_mem_ofList he
  obtain ⟨a, -, ha⟩ := exists_of_forall₂ (returns_mapM (returns_ok hp)).flip hin
  obtain ⟨g, hg, rfl⟩ := returns_map ha
  exact IntervalGroup.generate_settled hg

/-- The equations of a merged, blocked or promoted cluster are those that went into it. -/
theorem forall_equations {P : Equation → Prop} {xs ys : List Cluster}
    (heq : equationsOf ys = equationsOf xs) (h : ∀ c ∈ xs, ∀ e ∈ c.equations, P e) :
    ∀ c ∈ ys, ∀ e ∈ c.equations, P e := by
  intro c hc e he
  have hin : e ∈ equationsOf ys := List.mem_flatMap.mpr ⟨c, hc, he⟩
  rw [heq] at hin
  obtain ⟨c', hc', he⟩ := List.mem_flatMap.mp hin
  exact h c' hc' e he

theorem Merge.settled {xs ys : List Cluster} (hm : Merge xs ys) (h : ∀ c ∈ xs, c.Settled) :
    ∀ c ∈ ys, c.Settled := by
  have hequations := forall_equations hm.equationsOf_eq fun c hc => (h c hc).equations
  obtain ⟨hj⟩ := hm
  obtain ⟨-, deps, k, -, -, hk, rfl⟩ := Fusion.join?_cases hj
  have hparts := Cluster.ofClusters_parts hk
  rw [List.forall_mem_singleton] at hequations ⊢
  exact ⟨hequations, IterationSpace.union_settled hparts.ispace,
    DataSpace.union_settled hparts.dspace⟩

theorem Block.settled {xs ys : List Cluster} (hm : Block xs ys) (h : ∀ c ∈ xs, c.Settled) :
    ∀ c ∈ ys, c.Settled := by
  have hequations := forall_equations hm.equationsOf_eq fun c hc => (h c hc).equations
  obtain ⟨-, hb⟩ := hm
  obtain ⟨n, blocks, last, i, ispace, -, -, -, hs, rfl⟩ := Blocking.block_cases hb
  rw [List.forall_mem_singleton] at h hequations ⊢
  exact ⟨hequations, IterationSpace.expand_settled hs, h.dspace⟩

theorem Promote.settled {xs ys : List Cluster} (hm : Promote xs ys) (h : ∀ c ∈ xs, c.Settled) :
    ∀ c ∈ ys, c.Settled := by
  have hequations := forall_equations hm.equationsOf_eq fun c hc => (h c hc).equations
  obtain ⟨-, hp⟩ := hm
  obtain ⟨chains, group, hg, rfl⟩ := Interchange.moveLoop_cases hp
  rw [List.forall_mem_singleton] at h hequations ⊢
  exact ⟨hequations, IntervalGroup.build_settled hg, h.dspace⟩

/-- A move keeps the clusters around it, so it is enough that it keeps its own settled. -/
theorem Move.settled {xs ys : List Cluster} (hm : Move False xs ys) (h : ∀ c ∈ xs, c.Settled) :
    ∀ c ∈ ys, c.Settled := by
  cases hm with
  | exchange hm =>
    obtain ⟨-⟩ := hm
    exact fun c hc => h c (List.mem_append.mpr (List.mem_append.mp hc).symm)
  | merge hm => exact hm.settled h
  | block hm => exact hm.settled h
  | promote hm => exact hm.settled h
  | split hs => exact hs.elim

theorem Pipeline.run_settled {config : Config} {clusters : List Cluster} {out : Outcome}
    (hpass : "remainder" ∉ config.mode.passes) (h : run config clusters = .ok out)
    (hc : ∀ c ∈ clusters, c.Settled) : ∀ c ∈ out.clusters, c.Settled := by
  have hmoves := run_moves h
  simp only [hpass] at hmoves
  exact hmoves.forall_mem (fun _ _ hm => hm.settled) hc

end LoopNest
