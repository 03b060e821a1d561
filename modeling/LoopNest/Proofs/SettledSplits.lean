import LoopNest.Proofs.KeptLoops

namespace LoopNest

def Cluster.OneSpace (c : Cluster) : Prop := ∀ e ∈ c.equations, e.ispace = c.ispace

namespace Remainder

theorem IsPart.nodup {d : Dimension} {e part : Equation} (h : IsPart d e part) :
    part.ispace.dimensions.Nodup := by
  obtain ⟨slab, n, region, i, -, hpiece⟩ := h
  exact IntervalGroup.build_dimensions_nodup (IterationSpace.expand_settled hpiece.space)

/-- A part iterates over the slab and no longer over the dimension. -/
theorem IsPart.not_mem {d : Dimension} {e part : Equation} (h : IsPart d e part)
    (hnd : e.ispace.dimensions.Nodup) : d ∉ part.ispace.dimensions := by
  obtain ⟨slab, n, region, i, hi, hpiece⟩ := h
  obtain ⟨group, hg, hspace⟩ := Returns.of_bind (returns_ok hpiece.space)
  have hdims := IntervalGroup.expand_dimensions hnd hg
  rw [Returns.of_pure hspace]
  intro hin
  obtain ⟨f, -, hf⟩ := List.mem_map.mp (hdims.mem_iff.mp hin)
  split at hf
  · rw [hi] at hf
    have hsize := congrArg sizeOf hf
    rw [Dimension.sub.sizeOf_spec] at hsize
    omega
  · contradiction

/-- Siblings that decomposition returns as they are have nothing in common, so it does nothing to
them, whatever slabs there are. Had they a range in common, each of them would be a part and would
not iterate over the dimension any more. -/
theorem decompose_unchanged {siblings : List Equation} {d : Dimension}
    (h : returns (decompose siblings d) siblings) : decompose siblings d = pure siblings := by
  rcases decompose_cases h with ⟨-, hpure⟩ | ⟨intervals, lower, upper, hover, hcommon⟩
  · exact hpure
  have hparted := decompose_parted hover hcommon h
  cases hover with
  | nil => cases hcommon
  | cons he _ =>
    obtain ⟨source, hsource, hpart⟩ := hparted.source _ List.mem_cons_self
    obtain ⟨_, -, hsourcePart⟩ := hparted.source source hsource
    have hin := List.mem_of_find?_eq_some (find?_of_intervalOver he)
    refine absurd (List.mem_map.mpr ⟨_, hin, dim_of_intervalOver he⟩) ?_
    exact hpart.not_mem hsourcePart.nodup

/-- Equations in one space do not differ along any dimension. -/
theorem not_diverges {c : Cluster} (h : c.OneSpace) (d : Dimension) : diverges c d = false := by
  unfold diverges
  split
  · rfl
  rename_i intervals hread
  have hsame : ∀ i ∈ intervals, c.ispace.intervals.find? d = some i := by
    intro i hi
    obtain ⟨e, he, hfind⟩ := exists_of_forall₂ (returns_mapM (returns_some hread)).flip hi
    rw [← h e he]
    exact hfind
  refine List.any_eq_false.mpr fun p hp => ?_
  obtain ⟨hfirst, hsecond⟩ := List.of_mem_zip hp
  have heq := (hsame p.1 hfirst).symm.trans (hsame p.2 (List.mem_of_mem_tail hsecond))
  simpa using heq

theorem splitCluster_of_not_diverges {c : Cluster} (h : ∀ d, diverges c d = false) :
    splitCluster c = pure [c] := by
  have hnone : c.dimensions.find? (diverges c) = none :=
    List.find?_eq_none.mpr fun d _ => by rw [h d]; exact Bool.false_ne_true
  rw [splitCluster, hnone, ite_self]

theorem splitCluster_settles {c : Cluster} {cs : List Cluster} (h : returns (splitCluster c) cs) :
    (cs = [c] ∧ splitCluster c = pure [c]) ∨ ∀ c' ∈ cs, c'.OneSpace := by
  have halone : splitCluster c = pure [c] → cs = [c] ∧ splitCluster c = pure [c] := by
    intro hpure
    rw [hpure] at h
    exact ⟨Returns.of_pure h, hpure⟩
  by_cases hfew : c.equations.length < 2
  · exact .inl (halone (by rw [splitCluster, if_pos hfew]))
  cases hd : c.dimensions.find? (diverges c) with
  | none => exact .inl (halone (by rw [splitCluster, hd, ite_self]))
  | some d =>
    rw [splitCluster, if_neg hfew, hd] at h halone ⊢
    dsimp only at h halone ⊢
    obtain ⟨parts, hparts, h⟩ := Returns.of_bind h
    by_cases hsame : parts = c.equations
    · subst hsame
      refine .inl (halone ?_)
      rw [decompose_unchanged hparts, pure_bind, if_pos rfl]
    · rw [if_neg hsame] at h
      exact .inr (Cluster.clusterize_cases (mapError_ok (returns_lift h))).2

/-- Remainder decomposition is idempotent. A cluster is left alone, and then by any further run as
well, or split into clusters that hold equations in one space each. A further run on the output,
whatever names are already given out, returns it as it is and splits nothing. -/
theorem apply_idempotent {clusters out : List Cluster} {s s' : State}
    (h : (apply clusters).run s = .ok (out, s')) :
    (∀ t, (apply out).run t = .ok (out, t)) ∧
      ∃ parts : List (List Cluster), out = parts.flatten ∧ List.Forall₂ (fun c cs =>
        (cs = [c] ∧ ∀ t, (splitCluster c).run t = .ok ([c], t)) ∨ ∀ c' ∈ cs, c'.OneSpace)
        clusters parts := by
  obtain ⟨parts, hparts, rfl⟩ := returns_map (show returns (apply clusters) out from ⟨s, s', h⟩)
  have hsettles := (returns_mapM hparts).imp fun c cs hc => splitCluster_settles hc
  have hagain : ∀ c' ∈ parts.flatten, splitCluster c' = pure [c'] := by
    intro c' hc'
    obtain ⟨cs, hcs, hc'⟩ := List.mem_flatten.mp hc'
    obtain ⟨c, -, hc⟩ := exists_of_forall₂ hsettles.flip hcs
    rcases hc with ⟨rfl, hpure⟩ | hspaces
    · rwa [List.mem_singleton.mp hc']
    · exact splitCluster_of_not_diverges (not_diverges (hspaces c' hc'))
  have happly : apply parts.flatten = pure parts.flatten := by
    rw [apply, mapM_eq_pure hagain, map_pure, ← List.flatMap_def, List.flatMap_singleton']
  refine ⟨fun t => by rw [happly]; rfl, parts, rfl, hsettles.imp fun c cs hc => ?_⟩
  exact hc.imp_left fun halone => ⟨halone.1, fun t => by rw [halone.2]; rfl⟩

def apart : Cluster :=
  let row (array : String) (lower upper : Int64) : Equation :=
    ⟨.around "x" array 0, .int 1,
      .ofIntervals (.ofIntervals [.closed (.basic "x") (.int lower) (.int upper)]), .empty⟩
  ⟨[row "u" 0 1, row "w" 2 3],
    .ofIntervals (.ofIntervals [.closed (.basic "x") (.int 0) (.int 3)]), .empty, .empty⟩

/-- Equations that differ along `x` and `y` are split along `x` only, disjoint ones are left alone,
and nothing is left to split. -/
theorem apply_idempotent_uneven :
    ∃ out s', (apply [uneven 1 1, apart]).run .empty = .ok (out, s') ∧
      loopNames out = [["x_mr0", "y"], ["x_rr0", "y"], ["x_mr0", "y"], ["x"]] ∧ s'.splits = 1 ∧
      (apply out).run .empty = .ok (out, .empty) := by
  have hread : ((apply [uneven 1 1, apart]).run .empty).toOption.map
      (fun r => (loopNames r.1, r.2.splits)) =
        some ([["x_mr0", "y"], ["x_rr0", "y"], ["x_mr0", "y"], ["x"]], 1) := by
    decide +kernel
  obtain ⟨⟨out, s'⟩, hrun, hout⟩ := exists_of_toOption hread
  obtain ⟨hnames, hsplits⟩ := Prod.mk.inj hout
  exact ⟨out, s', hrun, hnames, hsplits, (apply_idempotent hrun).1 .empty⟩

end Remainder
end LoopNest
