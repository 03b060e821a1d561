import LoopNest.Proofs.BlockScopes

namespace LoopNest
namespace Blocking

structure Replaced (b : Blocking) (l : IterationInterval) (c : Cluster) (n : Nat)
    (first : Dimension) (rest : List Dimension) (last : Dimension) : Prop where
  hierarchy : b.Hierarchy l.dim n first rest last
  distinct : c.dimensions.Nodup
  unrepeated : (first :: (rest ++ [last])).Nodup
  chain : first :: (rest ++ [last]) ∈ c.ispace.intervals.relations.toList
  loops : ∀ m ∈ blockIntervals l.interval (first :: (rest ++ [last])), m ∈ c.intervals
  order : ∀ p q, Precedes (first :: (rest ++ [last])) p q → Precedes c.dimensions p q
  directions : ∀ d ∈ first :: (rest ++ [last]), c.ispace.direction d = l.direction

section
variable {b : Blocking} {l : IterationInterval} {c₁ c₂ : Cluster} {i : Interval}
  {others : List Interval} {n : Nat} {first last : Dimension} {rest : List Dimension}

theorem Expansion.replaced (h : Expansion c₁ c₂ i others (first :: (rest ++ [last])))
    (hnest : b.Hierarchy i.dim n first rest last) :
    b.Replaced ⟨i, c₁.ispace.direction i.dim⟩ c₂ n first rest last := by
  have hchains := h.chains _ (.inl rfl) h.unrepeated
  have hin : ∀ d ∈ first :: (rest ++ [last]), d ∈ c₂.dimensions := fun d => h.new_mem_dimensions
  exact
    { hierarchy := hnest
      distinct := h.distinct
      unrepeated := h.unrepeated
      chain := (hchains first (hin _ List.mem_cons_self) last (hin _ (by simp))
        (Precedes.cons_iff.mpr (.inl ⟨rfl, by simp⟩))).1
      loops := fun m hm => (h.mem m).mpr (.inr hm)
      order := fun p q hpq =>
        (hchains p (hin p hpq.left_mem) q (hin q hpq.right_mem) hpq).2
      directions := h.directions }

/-- Blocking another loop leaves the hierarchy as it is. -/
theorem Replaced.step (hl : b.Replaced l c₁ n first rest last) {new : List Dimension}
    (h : Expansion c₁ c₂ i others new) (hne : i.dim ∉ first :: (rest ++ [last])) :
    b.Replaced l c₂ n first rest last := by
  -- the intervals of the hierarchy are among those that stay, so the new ones are over others
  have hother : ∀ m ∈ blockIntervals l.interval (first :: (rest ++ [last])), m ∈ others := by
    refine fun m hm => h.keeps (hl.loops m hm) fun he => hne ?_
    exact he ▸ dim_mem_of_blockIntervals hm
  have hin : ∀ d ∈ first :: (rest ++ [last]), d ∉ new ∧ d ∈ c₂.dimensions := by
    intro d hd
    obtain ⟨m, hm, rfl⟩ := exists_blockInterval l.interval hd
    exact ⟨h.fresh m (hother m hm),
      Cluster.mem_dimensions_of_mem ((h.mem m).mpr (.inl (hother m hm)))⟩
  have hchains := h.chains _ (.inr ⟨hl.chain, hne⟩) hl.unrepeated
  exact
    { hierarchy := hl.hierarchy
      distinct := h.distinct
      unrepeated := hl.unrepeated
      chain := (hchains first (hin _ List.mem_cons_self).2 last (hin _ (by simp)).2
        (Precedes.cons_iff.mpr (.inl ⟨rfl, by simp⟩))).1
      loops := fun m hm => (h.mem m).mpr (.inl (hother m hm))
      order := fun p q hpq =>
        (hchains p (hin p hpq.left_mem).2 q (hin q hpq.right_mem).2 hpq).2
      directions := fun d hd => by
        rw [h.undirected d (hin d hd).1 fun he => hne (he ▸ hd), hl.directions d hd] }

end

/-- Dimensions of a cluster are blocked one after another. -/
inductive InTurn (b : Blocking) : Cluster → List Dimension → Cluster → Prop
  | done (c : Cluster) : InTurn b c [] c
  | next {c c₁ c' : Cluster} {d : Dimension} {taken : List Dimension} (hw : b.wants c d)
    (h : returns (b.block c d) c₁) (hrest : InTurn b c₁ taken c') : InTurn b c (d :: taken) c'

section
variable {b : Blocking} {c c' : Cluster} {d : Dimension} {taken : List Dimension} {i : Interval}

/-- Nothing is blocked that was not tilable from the start. -/
theorem InTurn.isTilable (h : b.InTurn c taken c') : ∀ d ∈ taken, c.properties.isTilable d := by
  induction h with
  | done => simp
  | next hw h _ ih =>
    obtain ⟨i, others, new, rfl, hx⟩ := expansion_of_block h
    exact List.forall_mem_cons.mpr
      ⟨isTilable_of_wants hw, fun d hd => (hx.tilable (ih d hd)).1⟩

theorem InTurn.tilable (h : b.InTurn c taken c') (ht : c'.properties.isTilable d) :
    c.properties.isTilable d ∧ d ∉ taken := by
  induction h with
  | done => exact ⟨ht, List.not_mem_nil⟩
  | next _ h _ ih =>
    obtain ⟨i, others, new, rfl, hx⟩ := expansion_of_block h
    obtain ⟨ht, hd⟩ := ih ht
    obtain ⟨ht, hne⟩ := hx.tilable ht
    exact ⟨ht, List.not_mem_cons_of_ne_of_not_mem hne hd⟩

/-- A loop that is not blocked stays. -/
theorem InTurn.keeps (h : b.InTurn c taken c') (hi : i ∈ c.intervals) (hd : i.dim ∉ taken) :
    i ∈ c'.intervals ∧ c'.ispace.direction i.dim = c.ispace.direction i.dim := by
  induction h with
  | done => exact ⟨hi, rfl⟩
  | next _ h _ ih =>
    rw [List.mem_cons, not_or] at hd
    obtain ⟨j, others, new, rfl, hx⟩ := expansion_of_block h
    have hother := hx.keeps hi hd.1
    obtain ⟨hin, hdir⟩ := ih ((hx.mem i).mpr (.inl hother)) hd.2
    exact ⟨hin, hdir.trans (hx.undirected _ (hx.fresh i hother) hd.1)⟩

theorem InTurn.mem_of_tilable (h : b.InTurn c taken c')
    (hin : c.properties.isTilable d → d ∈ c.dimensions) (ht : c'.properties.isTilable d) :
    d ∈ c'.dimensions := by
  obtain ⟨ht, hd⟩ := h.tilable ht
  obtain ⟨m, hm, rfl⟩ := List.mem_map.mp (hin ht)
  exact Cluster.mem_dimensions_of_mem (h.keeps hm hd).1

theorem InTurn.find? (h : b.InTurn c taken c') (hi : c.ispace.intervals.find? d = some i)
    (hd : d ∉ taken) : c'.ispace.intervals.find? d = some i := by
  induction h with
  | done => exact hi
  | next _ h _ ih =>
    rw [List.mem_cons, not_or] at hd
    obtain ⟨j, others, new, rfl, hx⟩ := expansion_of_block h
    have hdim := IntervalGroup.dim_of_find? hi
    refine ih ?_ hd.2
    refine IntervalGroup.find?_dim hx.distinct ((hx.mem i).mpr (.inl (hx.keeps ?_ ?_))) hdim
    · exact List.mem_of_find?_eq_some hi
    · rw [hdim]
      exact hd.1

/-- A run is cut where a dimension is blocked for the first time. -/
theorem InTurn.split (h : b.InTurn c taken c') (hd : d ∈ taken) :
    ∃ before after c₁ c₂, taken = before ++ d :: after ∧ d ∉ before ∧ b.InTurn c before c₁ ∧
      returns (b.block c₁ d) c₂ ∧ b.InTurn c₂ after c' := by
  induction h with
  | done => cases hd
  | next hw h hrest ih =>
    rename_i e _
    by_cases he : d = e
    · subst he
      exact ⟨[], _, _, _, rfl, List.not_mem_nil, .done _, h, hrest⟩
    · obtain ⟨before, after, c₁, c₂, rfl, hbefore, hc₁, hblock, hc₂⟩ :=
        ih ((List.mem_cons.mp hd).resolve_left he)
      exact ⟨e :: before, after, c₁, c₂, rfl, List.not_mem_cons_of_ne_of_not_mem he hbefore,
        .next hw h hc₁, hblock, hc₂⟩

theorem Replaced.inTurn {l : IterationInterval} {n : Nat} {first last : Dimension}
    {rest : List Dimension} (hl : b.Replaced l c n first rest last) (h : b.InTurn c taken c')
    (hne : ∀ d ∈ first :: (rest ++ [last]), d ∉ taken) : b.Replaced l c' n first rest last := by
  induction h with
  | done => exact hl
  | next _ h _ ih =>
    obtain ⟨i, others, new, rfl, hx⟩ := expansion_of_block h
    refine ih (hl.step hx fun hi => hne _ hi List.mem_cons_self) fun d hd hin => ?_
    exact hne d hd (List.mem_cons_of_mem _ hin)

end

/-- A run of the pass blocks dimensions of every cluster in turn. -/
theorem apply_inTurn {b : Blocking} {clusters out : List Cluster}
    (h : returns (b.apply clusters) out) :
    List.Forall₂ (fun c c' => ∃ taken, b.InTurn c taken c') clusters out := by
  refine (apply_pointwise h).imp fun c c' hc => ?_
  induction hc using Relation.ReflTransGen.head_induction_on with
  | refl => exact ⟨[], .done _⟩
  | head hstep _ ih =>
    obtain ⟨d, hw, hstep⟩ := hstep
    obtain ⟨taken, ih⟩ := ih
    exact ⟨d :: taken, .next hw hstep ih⟩

/-- The loops that blocking makes of one, in nesting order: blocks nested in one another over its
dimension, numbered from the outside, the innermost of which has its name. -/
structure NestOf (b : Blocking) (l : IterationInterval) (c : Cluster)
    (nest : List IterationInterval) : Prop where
  sublist : nest.Sublist c.loops
  linked : (l.dim :: nest.map (·.dim)).IsChain IsBlockOver
  named : ∃ n, nest.map (·.dim.name) =
    (List.range b.levels).map (blockName l.dim n) ++ [l.dim.name]

def nestOver (l : IterationInterval) (new : List Dimension) : List IterationInterval :=
  (blockIntervals l.interval new).map (⟨·, l.direction⟩)

theorem nestOver_map_dim (l : IterationInterval) (new : List Dimension) :
    (nestOver l new).map (·.dim) = new := by
  rw [nestOver, List.map_map]
  exact blockIntervals_map_dim l.interval new

section
variable {b : Blocking} {l : IterationInterval} {c : Cluster} {n : Nat} {first last : Dimension}
  {rest : List Dimension}

theorem Hierarchy.map_name {d : Dimension} (h : b.Hierarchy d n first rest last)
    (hlevels : b.levels ≠ 0) :
    (first :: (rest ++ [last])).map Dimension.name =
      (List.range b.levels).map (blockName d n) ++ [d.name] := by
  rw [← List.cons_append, List.map_append, h.names, List.map_singleton, h.point,
    Nat.sub_add_cancel (Nat.pos_of_ne_zero hlevels)]

theorem Replaced.dimensions_filter (h : b.Replaced l c n first rest last) :
    c.dimensions.filter (· ∈ first :: (rest ++ [last])) = first :: (rest ++ [last]) := by
  refine Precedes.eq_of_perm h.unrepeated ?_ fun p q hpq =>
    (h.order p q hpq).filter (by simpa using hpq.left_mem) (by simpa using hpq.right_mem)
  refine (List.perm_ext_iff_of_nodup (h.distinct.filter _) h.unrepeated).mpr fun d => ?_
  simp only [List.mem_filter, decide_eq_true_eq]
  refine ⟨fun hd => hd.2, fun hd => ⟨?_, hd⟩⟩
  obtain ⟨m, hm, rfl⟩ := exists_blockInterval l.interval hd
  exact Cluster.mem_dimensions_of_mem (h.loops m hm)

theorem Replaced.intervals_filter (h : b.Replaced l c n first rest last) :
    c.intervals.filter (fun m => m.dim ∈ first :: (rest ++ [last])) =
      blockIntervals l.interval (first :: (rest ++ [last])) := by
  refine IntervalGroup.eq_of_map_dim h.distinct (fun m hm => List.mem_of_mem_filter hm) h.loops ?_
  rw [blockIntervals_map_dim]
  refine Eq.trans ?_ h.dimensions_filter
  exact (List.filter_map (p := (decide <| · ∈ first :: (rest ++ [last])))).symm

theorem Replaced.sublist (h : b.Replaced l c n first rest last) :
    (nestOver l (first :: (rest ++ [last]))).Sublist c.loops := by
  have hsub : (blockIntervals l.interval (first :: (rest ++ [last]))).Sublist c.intervals := by
    rw [← h.intervals_filter]
    exact List.filter_sublist
  have hloops : nestOver l (first :: (rest ++ [last])) =
      (blockIntervals l.interval (first :: (rest ++ [last]))).map
        fun m => ⟨m, c.ispace.direction m.dim⟩ := by
    refine List.map_congr_left fun m hm => ?_
    rw [h.directions _ (dim_mem_of_blockIntervals hm)]
  rw [hloops]
  exact hsub.map _

theorem Replaced.map_name (h : b.Replaced l c n first rest last) (hlevels : b.levels ≠ 0) :
    (nestOver l (first :: (rest ++ [last]))).map (·.dim.name) =
      (List.range b.levels).map (blockName l.dim n) ++ [l.dim.name] := by
  rw [← h.hierarchy.map_name hlevels]
  conv_rhs => rw [← nestOver_map_dim l (first :: (rest ++ [last])), List.map_map]
  rfl

theorem Replaced.nestOf (h : b.Replaced l c n first rest last) (hlevels : b.levels ≠ 0) :
    b.NestOf l c (nestOver l (first :: (rest ++ [last]))) where
  sublist := h.sublist
  linked := nestOver_map_dim l _ ▸ h.hierarchy.linked
  named := ⟨n, h.map_name hlevels⟩

end

end Blocking
end LoopNest
