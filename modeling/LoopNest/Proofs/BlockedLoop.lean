import LoopNest.Proofs.BlockChains
import Mathlib.Data.List.Lattice

namespace LoopNest
namespace Blocking

variable {b : Blocking} {c c' : Cluster} {d first : Dimension} {levels : Nat}
  {inner after front : List Dimension}

/-- What is built where a dimension is blocked: the new loops stand in the place of the old one, and
in the chains the first of them takes its part. -/
theorem expand_eq_build {g : IntervalGroup} {i : Interval} {extra : List (List Dimension)}
    (h : g.dimensions = front ++ d :: after) (hfront : d ∉ front) :
    ∃ intervals, intervals.map Interval.dim = front ++ (first :: inner) ++ after ∧
      g.expand d (blockIntervals i (first :: inner)) extra = IntervalGroup.build intervals
        (g.relations.toList.map (·.map fun e => if e = d then first else e) ++ extra) := by
  have hindex := IntervalGroup.indexOf?_of_split h hfront
  refine ⟨g.intervals.take front.length ++ blockIntervals i (first :: inner) ++
    g.intervals.drop (front.length + 1), ?_, ?_⟩
  · have h : g.intervals.map Interval.dim = front ++ d :: after := h
    rw [List.map_append, List.map_append, blockIntervals_map_dim, List.map_take, List.map_drop, h,
      List.take_left]
    simp
  · unfold IntervalGroup.expand
    rw [hindex]
    simp only [blockIntervals, Interval.switch_dim]

def blockedChains (c : Cluster) (d first : Dimension) (new : List Dimension) :
    List (List Dimension) :=
  c.chains.map (·.map fun e => if e = d then first else e) ++ new :: levelChains new c.dimensions

theorem Hierarchy.length {last : Dimension} {n : Nat} {rest : List Dimension}
    (h : b.Hierarchy d n first rest last) (hlevels : b.levels ≠ 0) :
    (first :: (rest ++ [last])).length = b.levels + 1 := by
  have hlen := congrArg List.length h.names
  simp only [List.length_map, List.length_range, List.length_cons] at hlen
  simp only [List.length_cons, List.length_append, List.length_nil]
  omega

/-- What becomes of a cluster where a loop gives way to others: they are blocks over one another
down from it, and the nest is built anew with them in its place. -/
structure Opened (levels : Nat) (c : Cluster) (front : List Dimension) (d : Dimension)
    (after : List Dimension) (first : Dimension) (inner : List Dimension) (c' : Cluster) :
    Prop where
  dims : c.dimensions = front ++ d :: after
  chain : (d :: first :: inner).IsChain IsBlockOver
  length : inner.length = levels
  build : ∃ intervals, intervals.map Interval.dim = front ++ (first :: inner) ++ after ∧
    IntervalGroup.build intervals (blockedChains c d first (first :: inner)) =
      .ok c'.ispace.intervals
  equations : c'.equations = c.equations
  dspace : c'.dspace = c.dspace
  directions : ∀ e, c'.ispace.direction e =
    if e ∈ first :: inner then c.ispace.direction d
    else if e = d then .forward else c.ispace.direction e
  tags : c'.properties = inheritTags c.properties d (first :: inner)

theorem block_opened (hrun : returns (b.block c d) c') (hlevels : b.levels ≠ 0)
    (h : c.dimensions = front ++ d :: after) (hfront : d ∉ front) :
    ∃ first inner, Opened b.levels c front d after first inner c' := by
  obtain ⟨n, blocks, last, i, ispace, hblocks, hlast, -, hs, rfl⟩ := block_cases hrun
  obtain ⟨first, rest, rfl, hnest⟩ := hierarchy hblocks hlast
  rw [List.cons_append] at hs ⊢
  have hdir := IterationSpace.direction_expand hs
  rw [blockIntervals_map_dim] at hdir
  obtain ⟨group, hg, hs⟩ := Returns.of_bind (returns_ok hs)
  obtain rfl : ispace.intervals = group :=
    congrArg IterationSpace.intervals (Returns.of_pure hs)
  obtain ⟨intervals, hdims, heq⟩ := expand_eq_build (i := i) h hfront
  exact ⟨first, rest ++ [last],
    { dims := h
      chain := hnest.linked
      length := Nat.succ.inj (hnest.length hlevels)
      build := ⟨intervals, hdims, heq ▸ hg⟩
      equations := rfl
      dspace := rfl
      directions := hdir
      tags := rfl }⟩

/-- Blocking a dimension of a nest fails where arithmetic overflows or the nest cannot be built. -/
theorem block_fails {f : Failure} (hfail : Fails (b.block c d) f)
    (h : c.dimensions = front ++ d :: after) (hfront : d ∉ front) :
    f = .overflow ∨ ∃ e first inner intervals, f = .error e ∧
      (d :: first :: inner).IsChain IsBlockOver ∧
      intervals.map Interval.dim = front ++ (first :: inner) ++ after ∧
      IntervalGroup.build intervals (blockedChains c d first (first :: inner)) = .error e := by
  rcases fails_bind hfail with hfail | ⟨state, -, hfail⟩
  · exact absurd hfail not_fails_get
  rcases fails_bind hfail with hfail | ⟨blocks, hblocks, hfail⟩
  · exact .inl (blocksOver_overflows _ (fails_lift hfail))
  rcases fails_bind hfail with hfail | ⟨last, hlast, hfail⟩
  · exact .inl (Dimension.blockWithin_overflows _ (fails_lift hfail))
  obtain ⟨first, rest, rfl, hnest⟩ := hierarchy (returns_lift hblocks) (returns_lift hlast)
  dsimp only at hfail
  split at hfail
  · rename_i i hi
    rw [pure_bind] at hfail
    rcases fails_bind hfail with hfail | ⟨ispace, -, hfail⟩
    · obtain ⟨e, hs, rfl⟩ := mapError_error (fails_lift hfail)
      rcases bind_error hs with hg | ⟨group, -, hs⟩
      · rw [List.cons_append] at hg
        obtain ⟨intervals, hdims, heq⟩ := expand_eq_build (i := i) h hfront
        exact .inr ⟨e, first, rest ++ [last], intervals, rfl, hnest.linked, hdims, heq ▸ hg⟩
      · cases hs
    · rcases fails_bind hfail with hfail | ⟨-, -, hfail⟩
      · exact absurd hfail not_fails_modify
      · exact absurd hfail not_fails_pure
  · rename_i hnone
    have hd : d ∈ c.dimensions := by simp [h]
    obtain ⟨i, hi, hid⟩ := List.mem_map.mp hd
    exact absurd (decide_eq_true hid) (List.find?_eq_none.mp hnone i hi)

namespace Opened

theorem settled (h : Opened levels c front d after first inner c') : c'.ispace.Settled := by
  obtain ⟨intervals, -, hbuild⟩ := h.build
  exact IntervalGroup.build_settled hbuild

theorem perm (h : Opened levels c front d after first inner c') :
    c'.dimensions.Perm (front ++ (first :: inner) ++ after) := by
  obtain ⟨intervals, hdims, hbuild⟩ := h.build
  exact hdims ▸ (IntervalGroup.build_perm hbuild).map Interval.dim

theorem nodup (h : Opened levels c front d after first inner c') :
    (front ++ (first :: inner) ++ after).Nodup :=
  h.perm.nodup_iff.mp (IntervalGroup.build_dimensions_nodup h.settled)

theorem notMem_front (h : Opened levels c front d after first inner c') :
    ∀ e ∈ first :: inner, e ∉ front := fun e he hin =>
  (List.nodup_append.mp (List.nodup_append.mp h.nodup).1).2.2 e hin e he rfl

theorem notMem_after (h : Opened levels c front d after first inner c') :
    ∀ e ∈ first :: inner, e ∉ after := fun e he hin =>
  (List.nodup_append.mp h.nodup).2.2 e (List.mem_append_right _ he) e hin rfl

theorem ne (h : Opened levels c front d after first inner c') : ∀ e ∈ first :: inner, e ≠ d :=
  fun _ he hed => (List.nodup_cons.mp (nodup_of_linked h.chain)).1 (hed ▸ he)

/-- The new loops are new to the nest. -/
theorem notMem (h : Opened levels c front d after first inner c') :
    ∀ e ∈ first :: inner, e ∉ c.dimensions := by
  intro e he hin
  rw [h.dims] at hin
  rcases List.mem_append.mp hin with hin | hin
  · exact h.notMem_front e he hin
  · rcases List.mem_cons.mp hin with hin | hin
    · exact h.ne e he hin
    · exact h.notMem_after e he hin

theorem kept_mem (h : Opened levels c front d after first inner c') {e : Dimension}
    (he : e ∈ c.dimensions) (hne : e ≠ d) : e ∈ c'.dimensions := by
  rw [h.dims] at he
  rw [h.perm.mem_iff, List.append_assoc, List.mem_append, List.mem_append]
  rcases List.mem_append.mp he with he | he
  · exact .inl he
  · exact .inr (.inr ((List.mem_cons.mp he).resolve_left hne))

theorem new_mem (h : Opened levels c front d after first inner c') {e : Dimension}
    (he : e ∈ first :: inner) : e ∈ c'.dimensions := by
  rw [h.perm.mem_iff, List.append_assoc, List.mem_append, List.mem_append]
  exact .inr (.inl he)

theorem find?_tags (h : Opened levels c front d after first inner c') {e : Dimension}
    (he : e ∉ first :: inner) :
    c'.properties.find? e = if e = d then none else c.properties.find? e := by
  rw [h.tags]
  exact find?_inheritTags he

theorem mem_tags (h : Opened levels c front d after first inner c') {e : Dimension}
    (he : e ∈ first :: inner) {t : Property} : t ∈ (c'.properties.of e).toList ↔
      t ∈ (c.properties.of e).toList ∨ t ∈ (c.properties.of d).toList ∧ t ≠ .tilable := by
  rw [h.tags]
  exact mem_inheritTags he (h.ne e he)

theorem linked (h : Opened levels c front d after first inner c') {p q : Dimension} :
    Linked c'.chains p q ↔ Linked (blockedChains c d first (first :: inner)) p q := by
  obtain ⟨intervals, -, hbuild⟩ := h.build
  exact IntervalGroup.linked_build hbuild

end Opened

namespace Opened

/-- The chains of the nest turn to the outermost of the new loops, and what is added runs from the
new loops to one another or to blocks of other families with longer lineages. -/
theorem link_cases (h : Opened levels c front d after first inner c') {p q : Dimension}
    (hl : Linked c'.chains p q) :
    (∃ u v, Linked c.chains u v ∧ p = (if u = d then first else u) ∧
      q = if v = d then first else v) ∨
    p ∈ first :: inner ∧ (q ∈ first :: inner ∨ q ∈ c.dimensions ∧ DeeperApart p q) := by
  rcases linked_append.mp (h.linked.mp hl) with hl | hl
  · exact .inl (exists_of_linked_map hl)
  · rcases linked_cons.mp hl with hl | hl
    · have hpair := IntervalGroup.precedes_of_mem_chainPairs hl
      exact .inr ⟨hpair.left_mem, .inl hpair.right_mem⟩
    · obtain ⟨hp, hq⟩ := linked_levelChains_cases hl
      exact .inr ⟨hp, .inr hq⟩

/-- A chain that does not touch the blocked loop stays. -/
theorem link_kept (h : Opened levels c front d after first inner c') {u v : Dimension}
    (hl : Linked c.chains u v) (hu : u ≠ d) (hv : v ≠ d) : Linked c'.chains u v := by
  have hne : u ≠ v := by
    obtain ⟨chain, -, hp⟩ := hl
    exact of_decide_eq_true (List.mem_filter.mp hp).2
  have hmap := linked_map (f := fun e => if e = d then first else e) hl
    (by simpa [hu, hv] using hne)
  simp only [hu, hv, if_false] at hmap
  exact h.linked.mpr (linked_append.mpr (.inl hmap))

/-- Where no chain of the old nest leads from a loop behind the blocked one to a new one, the chains
from it are those of the old nest. -/
theorem path_of_tail (h : Opened levels c front d after first inner c') (hc : c.ispace.Settled)
    (hnew : ∀ z ∈ after, ∀ e ∈ first :: inner, ¬c.Chained z e) {z x : Dimension} (hz : z ∈ after)
    (hpath : c'.Chained z x) : c.Chained z x ∧ x ∉ first :: inner := by
  have hbehind : ¬c.Chained z d := by
    intro hzd
    have hnd : c.dimensions.Nodup := IntervalGroup.build_dimensions_nodup hc
    have hd : d ∈ c.dimensions := by simp [h.dims]
    have hzin : z ∈ c.dimensions := by simp [h.dims, hz]
    have hprec : Precedes c.dimensions z d := IntervalGroup.build_precedes_of_path hc hzd hzin hd
    rw [h.dims] at hprec hnd
    exact hprec.asymm hnd (.to_split hz)
  have hstep : ∀ y x, (y = z ∨ c.Chained z y) → y ∉ first :: inner → Linked c'.chains y x →
      c.Chained z x ∧ x ∉ first :: inner := by
    intro y x hy hnot hyx
    rcases h.link_cases hyx with ⟨u, v, huv, rfl, rfl⟩ | ⟨hin, -⟩
    · have hud : u ≠ d := by
        rintro rfl
        rw [if_pos rfl] at hnot
        exact hnot List.mem_cons_self
      rw [if_neg hud] at hy hnot
      have hzv : c.Chained z v := by
        rcases hy with rfl | hy
        · exact .single huv
        · exact hy.tail huv
      have hvd : v ≠ d := fun he => hbehind (he ▸ hzv)
      rw [if_neg hvd]
      exact ⟨hzv, fun hin => hnew z hz v hin hzv⟩
    · exact absurd hin hnot
  induction hpath with
  | single hzx => exact hstep z _ (.inl rfl) (fun hin => h.notMem_after z hin hz) hzx
  | tail _ hyx ih => exact hstep _ _ (.inr ih.1) ih.2 hyx

/-- Then the loops behind the blocked one keep their places. -/
theorem exists_front (h : Opened levels c front d after first inner c') (hc : c.ispace.Settled)
    (hnew : ∀ z ∈ after, ∀ e ∈ first :: inner, ¬c.Chained z e) :
    ∃ front', front'.Perm (front ++ (first :: inner)) ∧ c'.dimensions = front' ++ after := by
  obtain ⟨intervals, hdims, hbuild⟩ := h.build
  refine IntervalGroup.build_tail hbuild hdims fun z hz x hx hpath => ?_
  have hchained : c'.Chained z x :=
    hpath.lift id fun _ _ => h.linked.mpr
  obtain ⟨hzx, hnot⟩ := h.path_of_tail hc hnew hz hchained
  have hzin : z ∈ c.dimensions := by simp [h.dims, hz]
  have hxin : x ∈ c.dimensions := by
    have hin := h.perm.mem_iff.mp hx
    rw [List.append_assoc, List.mem_append, List.mem_append] at hin
    rw [h.dims]
    rcases hin with hin | hin | hin
    · exact List.mem_append_left _ hin
    · exact absurd hin hnot
    · exact List.mem_append_right _ (List.mem_cons_of_mem _ hin)
  have hnd : c.dimensions.Nodup := IntervalGroup.build_dimensions_nodup hc
  have hprec : Precedes c.dimensions z x := IntervalGroup.build_precedes_of_path hc hzx hzin hxin
  rw [h.dims, List.append_cons] at hprec hnd
  exact hprec.of_append_right hnd hz

end Opened

end Blocking
end LoopNest
