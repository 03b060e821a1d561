import LoopNest.Proofs.BlockWalk

namespace LoopNest
namespace Blocking

section
variable {b : Blocking} {c c₀ : Cluster} {d first : Dimension}
  {inner before after front : List Dimension} {parts : Dimension → List Dimension}

def outermost (parts : Dimension → List Dimension) (d : Dimension) : Dimension := (parts d).headD d

theorem outermost_update : outermost (Function.update parts d (first :: inner)) =
    Function.update (outermost parts) d first := by
  funext e
  unfold outermost
  by_cases he : e = d
  · rw [he, Function.update_self, Function.update_self, List.headD_cons]
  · rw [Function.update_of_ne he, Function.update_of_ne he]

theorem Walk.derived (h : Walk b c₀ before after front parts c) (hc : c₀.Unblocked) :
    b.Derived c₀ before (outermost parts) c.chains := by
  have hb := (Unforeseen.of_unblocked (b := b) hc).toBlockable
  induction h with
  | start => exact .start
  | skip h hw ih =>
    exact ih.skip fun hw₀ => hw (((h.standing hb).wants_of_left hb List.mem_cons_self).mpr hw₀)
  | block h hw ho hloops ih =>
    have hs := h.standing hb
    have hw₀ := (hs.wants_of_left hb List.mem_cons_self).mp hw
    have hnot := hs.notMem_before hb _ List.mem_cons_self
    rw [outermost_update]
    exact (ih.step hc hnot hw₀ ho.chain _).congr fun p q => ho.linked

/-- What could be built has no loop blocked against a chain from one of another family. -/
theorem Walk.sharesRoot (h : Walk b c₀ before after front parts c) (hc : c₀.Unblocked)
    {u v : Dimension} (hu : u ∈ before) (hv : v ∈ before) (hinv : b.Inverted c₀ u v) :
    u.sharesRoot v := by
  refine decide_eq_true (not_not.mp fun hroot => ?_)
  have hb := (Unforeseen.of_unblocked (b := b) hc).toBlockable
  have hs := h.standing hb
  have hderived := h.derived hc
  have hprec : Precedes before u v := by
    have hin : ∀ {e}, e ∈ before → e ∈ c₀.dimensions := fun he =>
      hs.nest ▸ List.mem_append_left _ he
    have hprec : Precedes c₀.dimensions u v :=
      IntervalGroup.build_precedes_of_path hc.settled hinv.chained (hin hu) (hin hv)
    have hnd := hb.nodup
    rw [hs.nest] at hprec hnd
    exact hprec.of_append_left hnd hv
  have hover := hderived.renames.blocks u hu hinv.wantsOuter
  have hmem : outermost parts u ∈ parts u := by
    have hdone : u ∈ before.filter (b.wants c₀) := List.mem_filter.mpr ⟨hu, hinv.wantsOuter⟩
    obtain ⟨first, inner, hparts⟩ :=
      List.exists_cons_of_length_eq_add_one (hs.tiled.blocked u hdone).2
    rw [outermost, hparts, List.headD_cons]
    exact List.mem_cons_self
  have hapart : v.root ≠ (outermost parts u).root := by
    rw [hover.root]
    exact Ne.symm hroot
  have hlong : v.lineage.length + 1 < (outermost parts u).lineage.length := by
    rw [hover.length_lineage]
    exact Nat.succ_lt_succ hinv.shorter
  obtain ⟨p, rest, hparts, hl⟩ :=
    h.linked_back hb hprec hinv.wantsInner hmem hover.1 hapart hlong
  have hp : outermost parts v = p := by rw [outermost, hparts, List.headD_cons]
  -- the chain between the two and the one between their blocks close a cycle
  obtain ⟨order, hnodup, horder, -⟩ := IntervalGroup.build_order hs.settled
  have hout := horder _ _ (hinv.chained.lift (outermost parts) hderived.image)
  rw [hp] at hout
  exact hout.asymm hnodup (horder _ _ (.single hl))

theorem callback_fails {f : Failure} {run : List Cluster} {outer : List IterationInterval}
    (h : Fails (b.callback run outer) f) :
    ∃ l, outer.getLast? = some l ∧ ∃ c ∈ run, b.wants c l.dim ∧ Fails (b.block c l.dim) f := by
  unfold callback at h
  split at h
  · exact absurd h not_fails_pure
  · rename_i l hl
    obtain ⟨c, hin, h⟩ := fails_mapM h
    split at h
    · rename_i hw
      exact ⟨l, hl, c, hin, hw, h⟩
    · exact absurd h not_fails_pure

/-- Blocks over a loop that is left are new to the nest. -/
theorem Walk.notMem_new (h : Walk b c₀ before after front parts c) (hc : c₀.Unblocked)
    (hd : d ∈ after) (hchain : (d :: first :: inner).IsChain IsBlockOver) :
    ∀ e ∈ first :: inner, e ∉ c.dimensions := by
  intro e he hin
  have hb := (Unforeseen.of_unblocked (b := b) hc).toBlockable
  have hs := h.standing hb
  have hplain : ∀ {a}, a ∈ c₀.dimensions → a.isBlock = false := fun ha => hc.plain _ (.inl ha)
  obtain ⟨a, ha, hpart⟩ := hs.tiled.exists_part hin
  by_cases hdone : a ∈ before.filter (b.wants c₀)
  · have hbase := base?_of_linked hchain e he
    have hd₀ : d ∈ c₀.dimensions := hs.nest ▸ List.mem_append_right _ hd
    rw [base?_of_linked (hs.tiled.blocked a hdone).1 e hpart, base?_of_plain (hplain ha),
      base?_of_plain (hplain hd₀)] at hbase
    obtain rfl := Option.some.inj hbase
    exact hs.notMem_before hb a hd (List.mem_of_mem_filter hdone)
  · rw [hs.tiled.kept a hdone, List.mem_singleton] at hpart
    have hblock := (isBlock_of_linked hchain e he).1
    rw [hpart, hplain ha] at hblock
    cases hblock

/-- Blocking a loop that the queue has come to fails where arithmetic overflows or over a cycle of
chains, and then some chain leads from a loop that is to be blocked to one with a shorter
lineage. -/
theorem Walk.block_fails {f : Failure} (h : Walk b c₀ before after front parts c)
    (hc : c₀.Unblocked) (hd : d ∈ c.dimensions) (hw : b.wants c d) (hfail : Fails (b.block c d) f) :
    f = .overflow ∨ (∃ e, f = .error e ∧ e.Is .cyclicRelations) ∧
      ∃ outer inner, b.Inverted c₀ outer inner := by
  have hb := (Unforeseen.of_unblocked (b := b) hc).toBlockable
  have hs := h.standing hb
  have hleft : d ∈ after := by
    rw [hs.loops] at hd
    exact (List.mem_append.mp hd).resolve_left fun hin => hs.not_wants_front hb hin hw
  obtain ⟨pre, post, hdims⟩ := List.append_of_mem hd
  have hdistinct := hs.nodup
  rw [hdims, List.nodup_middle, List.nodup_cons, List.mem_append, not_or] at hdistinct
  rcases Blocking.block_fails hfail hdims hdistinct.1.1 with
    rfl | ⟨e, first, inner, intervals, rfl, hchain, hintervals, hbuild⟩
  · exact .inl rfl
  have hnodup : (intervals.map Interval.dim).Nodup := by
    have hnew := h.notMem_new hc hleft hchain
    have hperm : (pre ++ (first :: inner) ++ post).Perm ((first :: inner) ++ (pre ++ post)) := by
      rw [← List.append_assoc]
      exact List.perm_append_comm.append_right _
    rw [hintervals, hperm.nodup_iff]
    refine List.nodup_append.mpr ⟨nodup_of_linked hchain.tail, hdistinct.2, fun e he e' he' => ?_⟩
    rintro rfl
    refine hnew e he ?_
    rw [hdims, List.mem_append, List.mem_cons]
    exact (List.mem_append.mp he').imp_right .inr
  have hcyclic : e.Is .cyclicRelations := IntervalGroup.build_error hnodup hbuild
  refine .inr ⟨⟨e, rfl, hcyclic⟩, ?_⟩
  by_contra hnone
  have hw₀ := (hs.wants_of_left hb hleft).mp hw
  have hderived := (h.derived hc).step hc (hs.notMem_before hb d hleft) hw₀ hchain c.dimensions
  exact hderived.not_cyclic hc (fun outer inner hinv => hnone ⟨outer, inner, hinv⟩) hbuild hcyclic

variable {clusters : List Cluster}

/-- Blocking fails where arithmetic overflows or over a cycle of chains, and then a chain of some
cluster leads from a loop that is to be blocked to one with a shorter lineage. -/
theorem apply_fails {f : Failure} (hc : ∀ c ∈ clusters, c.Unblocked)
    (h : Fails (b.apply clusters) f) :
    f = .overflow ∨ (∃ e, f = .error e ∧ e.Is .cyclicRelations) ∧
      ∃ c ∈ clusters, ∃ outer inner, b.Inverted c outer inner := by
  unfold apply at h
  split at h
  · exact absurd h not_fails_pure
  rename_i hlevels
  have hb : ∀ c ∈ clusters, b.Blockable c := fun c hin =>
    (Unforeseen.of_unblocked (hc c hin)).toBlockable
  have hvisit : ∀ level xs outer ys, (∀ c ∈ xs, ∃ c₀ ∈ clusters, b.Passed c₀ level c) →
      (∀ c ∈ xs, c.loops.take level = outer) → level ≤ outer.length →
      returns (b.callback xs outer) ys → ∀ c ∈ ys, ∃ c₀ ∈ clusters, b.Passed c₀ (level + 1) c := by
    intro level xs outer ys hxs hkey hlong hys c' hc'
    obtain ⟨c, -, hin, hv⟩ :=
      exists_of_forall₂ (callback_passed hlevels hkey hlong hys).flip hc'
    obtain ⟨c₀, hc₀, hv₀⟩ := hxs c hin
    exact ⟨c₀, hc₀, hv c₀ (hb c₀ hc₀) hv₀⟩
  obtain ⟨run, level, outer, hrun, hkey, hlong, h⟩ :=
    Queue.fails_applyFirst hvisit (fun c hin => ⟨c, hin, _, _, _, _, .start, Nat.le_refl 1⟩) h
  obtain ⟨l, hl, c, hin, hw, h⟩ := callback_fails h
  obtain ⟨c₀, hc₀, before, after, front, parts, hwalk, -⟩ := hrun c hin
  obtain ⟨pre, post, hdims, -⟩ := exists_split (hkey c hin) hlong hl
  have hd : l.dim ∈ c.dimensions := by simp [hdims]
  exact (hwalk.block_fails (hc c₀ hc₀) hd hw h).imp_right fun ⟨he, hinv⟩ => ⟨he, c₀, hc₀, hinv⟩

/-- Where blocking gives a result, no chain leads from a loop that is to be blocked to one of
another family with a shorter lineage. -/
theorem apply_returns {out : List Cluster} (hc : ∀ c ∈ clusters, c.Unblocked)
    (hlevels : b.levels ≠ 0) (h : returns (b.apply clusters) out) :
    ∀ c ∈ clusters, ∀ outer inner, b.Inverted c outer inner → outer.sharesRoot inner := by
  intro c hin outer inner hinv
  have hwalks := apply_walks (fun c hin => (Unforeseen.of_unblocked (hc c hin)).toBlockable)
    hlevels h
  obtain ⟨c', -, -, front, parts, hwalk⟩ := exists_of_forall₂ hwalks hin
  exact hwalk.sharesRoot (hc c hin) (mem_dimensions_of_wants (hc c hin) hinv.wantsOuter)
    (mem_dimensions_of_wants (hc c hin) hinv.wantsInner) hinv

end

end Blocking

def Cluster.twoLoops (outer inner : Dimension) : Cluster :=
  let loops : List Interval := [.closed outer .zero .zero, .closed inner .zero .zero]
  let e : Equation := ⟨.around inner.name "u" 0, .int 1,
    .ofIntervals ⟨loops, .ofList [[outer, inner]]⟩, .empty⟩
  ((Cluster.ofEquation e .empty).tagged outer [.tilable]).tagged inner [.tilable]

theorem Cluster.mem_twoLoops {outer inner d : Dimension} :
    d ∈ (twoLoops outer inner).dimensions ↔ d = outer ∨ d = inner := by
  have hdims : (twoLoops outer inner).dimensions = [outer, inner] := rfl
  rw [hdims, List.mem_pair]

theorem Cluster.twoLoops_unblocked {outer inner : Dimension}
    (hsettled : (twoLoops outer inner).ispace.Settled) (houter : outer.isBlock = false)
    (hinner : inner.isBlock = false) : (twoLoops outer inner).Unblocked := by
  have hplain : ∀ d, d = outer ∨ d = inner → d.isBlock = false := by
    rintro d (rfl | rfl) <;> assumption
  refine ⟨hsettled, ?_, fun d hd => mem_twoLoops.mpr ?_⟩
  · rintro d (hd | ⟨chain, hchain, hd⟩)
    · exact hplain d (mem_twoLoops.mp hd)
    · have hchain : chain ∈ (SortedSet.ofList [[outer, inner]]).toList := hchain
      rw [SortedSet.mem_ofList, List.mem_singleton] at hchain
      rw [hchain, List.mem_pair] at hd
      exact hplain d hd
  · have hd : (((Properties.empty.tag outer [.tilable]).tag inner [.tilable]).find? d).isSome := hd
    rw [Properties.find?_tag, Properties.find?_tag] at hd
    by_cases hi : d = inner
    · exact .inr hi
    · rw [if_neg hi] at hd
      by_cases ho : d = outer
      · exact .inl ho
      · rw [if_neg ho] at hd
        cases hd

open Blocking in
/-- Blocking clusters as they are read fails only where arithmetic overflows or over a cycle of
chains, and in the second case a chain leads from a loop that is to be blocked to another one with a
shorter lineage. Where two such loops are of different families, it does fail. -/
theorem blocking_fails_inverted {b : Blocking} {clusters : List Cluster}
    (hc : ∀ c ∈ clusters, c.Unblocked) :
    (∀ s f, (b.apply clusters).run s = .error f → f = .overflow ∨
      (∃ message, f = .error (.internal .cyclicRelations message)) ∧
        ∃ c ∈ clusters, ∃ outer inner, b.Inverted c outer inner) ∧
    ∀ c ∈ clusters, ∀ outer inner, b.Inverted c outer inner → outer.sharesRoot inner = false →
      b.levels ≠ 0 → ∀ s, (b.apply clusters).run s = .error .overflow ∨
        ∃ message, (b.apply clusters).run s =
          .error (.error (.internal .cyclicRelations message)) := by
  have hfails : ∀ s f, (b.apply clusters).run s = .error f → f = .overflow ∨
      (∃ message, f = .error (.internal .cyclicRelations message)) ∧
        ∃ c ∈ clusters, ∃ outer inner, b.Inverted c outer inner := by
    intro s f hf
    refine (apply_fails hc ⟨s, hf⟩).imp_right fun ⟨⟨e, he, message, hkind⟩, hinv⟩ => ?_
    exact ⟨⟨message, by rw [he, hkind]⟩, hinv⟩
  refine ⟨hfails, fun c hin outer inner hinv hroots hlevels s => ?_⟩
  cases hrun : (b.apply clusters).run s with
  | ok r =>
    have hshare := apply_returns hc hlevels ⟨s, r.2, hrun⟩ c hin outer inner hinv
    rw [hroots] at hshare
    cases hshare
  | error f =>
    rcases hfails s f hrun with rfl | ⟨⟨message, rfl⟩, -⟩
    · exact .inl rfl
    · exact .inr ⟨message, rfl⟩

open Blocking in
/-- Two basic loops have lineages of one length, so that blocking them does not fail unless
arithmetic overflows, and the blocks of a level come next to each other. -/
theorem blocking_fails_inverted_basic :
    (Cluster.twoLoops (.basic "x") (.basic "y")).Unblocked ∧
    (∀ s f, ((⟨2, true⟩ : Blocking).apply [.twoLoops (.basic "x") (.basic "y")]).run s =
      .error f → f = .overflow) ∧
    ∃ c s, ((⟨2, true⟩ : Blocking).apply [.twoLoops (.basic "x") (.basic "y")]).run .empty =
        .ok ([c], s) ∧
      c.dimensions.map Dimension.name = ["x0_blk0", "y0_blk0", "x0_blk1", "y0_blk1", "x", "y"] := by
  have hunblocked : (Cluster.twoLoops (.basic "x") (.basic "y")).Unblocked :=
    Cluster.twoLoops_unblocked rfl rfl rfl
  refine ⟨hunblocked, fun s f hf => ?_, exists_of_readings (by decide +kernel)⟩
  have hlength : ∀ d, (⟨2, true⟩ : Blocking).wants (.twoLoops (.basic "x") (.basic "y")) d →
      d.lineage.length = 1 := by
    intro d hd
    rcases Cluster.mem_twoLoops.mp (mem_dimensions_of_wants hunblocked hd) with rfl | rfl <;> rfl
  have hall := List.forall_mem_singleton.mpr hunblocked
  refine ((blocking_fails_inverted hall).1 s f hf).resolve_right ?_
  rintro ⟨-, c, hc, outer, inner, hinv⟩
  rw [List.mem_singleton.mp hc] at hinv
  have hshorter := hinv.shorter
  rw [hlength outer hinv.wantsOuter, hlength inner hinv.wantsInner] at hshorter
  exact Nat.lt_irrefl _ hshorter

def reportedKind? (r : Except Failure α) : Option InternalKind :=
  match r with
  | .error (.error e) => e.internalKind?
  | _ => none

/-- A slab comes from the dimension that it is part of. Blocking it and, further inside, a basic
dimension puts the block of the latter before that of the slab, against the chain. -/
theorem blocking_cyclic_slab :
    (Cluster.twoLoops (.sub "xl" (.basic "x") (.left (.int 1))) (.basic "y")).Unblocked ∧
      reportedKind? (((⟨1, true⟩ : Blocking).apply
        [.twoLoops (.sub "xl" (.basic "x") (.left (.int 1))) (.basic "y")]).run .empty) =
          some .cyclicRelations :=
  ⟨Cluster.twoLoops_unblocked rfl rfl rfl, by decide +kernel⟩

end LoopNest
