import LoopNest.Proofs.BlockWalk

namespace LoopNest
namespace Blocking

section
variable {b : Blocking} {c c' c₀ : Cluster} {d first : Dimension} {levels : Nat}
  {inner before after front : List Dimension} {parts : Dimension → List Dimension}

namespace Opened

/-- What comes to reach a loop in front of the blocked one does so over a block of another family
that is deeper than a new block. -/
theorem reaches (h : Opened levels c front d after first inner c') (hc : c.ispace.Settled)
    (hnew : ∀ n ∈ first :: inner, ∀ v, ¬Linked c.chains n v) {e p : Dimension} (hp : p ∈ front)
    (hpath : c'.Chained e p) :
    (∃ n ∈ first :: inner, ∃ y ∈ c.dimensions, DeeperApart n y ∧ (y = p ∨ c.Chained y p)) ∨
      e ∉ first :: inner ∧ c.Chained e p := by
  have hbehind : ¬c.Chained d p := by
    intro hdp
    have hnd : c.dimensions.Nodup := IntervalGroup.build_dimensions_nodup hc
    have hd : d ∈ c.dimensions := by simp [h.dims]
    have hpin : p ∈ c.dimensions := by simp [h.dims, hp]
    have hprec : Precedes c.dimensions d p := IntervalGroup.build_precedes_of_path hc hdp hd hpin
    rw [h.dims] at hprec hnd
    exact hprec.asymm hnd (.of_split hp)
  -- one link of the path, up to where it leaves the new loops for the last time
  have hstep : ∀ {e y}, Linked c'.chains e y → y ∉ first :: inner → (y = p ∨ c.Chained y p) →
      (∃ n ∈ first :: inner, ∃ y ∈ c.dimensions, DeeperApart n y ∧ (y = p ∨ c.Chained y p)) ∨
        e ∉ first :: inner ∧ c.Chained e p := by
    intro e y hey hy hyp
    rcases h.link_cases hey with ⟨u, v, huv, rfl, rfl⟩ | ⟨he, hin | ⟨hin, hdeeper⟩⟩
    · have hvd : v ≠ d := fun hvd => hy (by rw [if_pos hvd]; exact List.mem_cons_self)
      rw [if_neg hvd] at hyp
      have hup : c.Chained u p := by
        rcases hyp with rfl | hyp
        · exact .single huv
        · exact .head huv hyp
      have hud : u ≠ d := fun hud => hbehind (hud ▸ hup)
      rw [if_neg hud]
      exact .inr ⟨fun hu => hnew u hu v huv, hup⟩
    · exact absurd hin hy
    · exact .inl ⟨e, he, y, hin, hdeeper, hyp⟩
  induction hpath using Relation.TransGen.head_induction_on with
  | single hep => exact hstep hep (fun hin => h.notMem_front p hin hp) (.inl rfl)
  | head hey _ ih =>
    rcases ih with hover | ⟨hy, hyp⟩
    · exact .inl hover
    · exact hstep hey hy (.inr hyp)

/-- A loop in front of the blocked one stays outside those it was outside of, if no block at or
above it is deeper than a new one. -/
theorem keeps (h : Opened levels c front d after first inner c') (hc : c.ispace.Settled)
    (hnew : ∀ n ∈ first :: inner, ∀ v, ¬Linked c.chains n v) {p q : Dimension} (hp : p ∈ front)
    (hpq : Precedes (front ++ (first :: inner)) p q)
    (hfree : ∀ n ∈ first :: inner, ∀ y ∈ c.dimensions, DeeperApart n y →
      ¬(y = p ∨ c.Chained y p)) : Precedes c'.dimensions p q := by
  obtain ⟨intervals, hdims, hbuild⟩ := h.build
  have hgiven : Precedes (front ++ (first :: inner) ++ after) p q :=
    List.Sublist.trans hpq (List.sublist_append_left _ _)
  refine IntervalGroup.build_keeps hbuild (hdims ▸ hgiven) fun e he hep => ?_
  rw [hdims] at he ⊢
  have hchained : c'.Chained e p := hep.lift id fun _ _ => h.linked.mpr
  rcases h.reaches hc hnew hp hchained with ⟨n, hn, y, hy, hdeeper, hyp⟩ | ⟨hnot, hep⟩
  · exact absurd hyp (hfree n hn y hy hdeeper)
  · have hein : e ∈ c.dimensions := by
      rw [List.append_assoc, List.mem_append, List.mem_append] at he
      rw [h.dims]
      rcases he with he | he | he
      · exact List.mem_append_left _ he
      · exact absurd he hnot
      · exact List.mem_append_right _ (List.mem_cons_of_mem _ he)
    have hpin : p ∈ c.dimensions := h.dims ▸ List.mem_append_left _ hp
    have hprec : Precedes c.dimensions e p :=
      IntervalGroup.build_precedes_of_path hc hep hein hpin
    have hnd : c.dimensions.Nodup := IntervalGroup.build_dimensions_nodup hc
    have hfront : Precedes front e p := by
      rw [h.dims] at hprec hnd
      exact hprec.of_append_left hnd hp
    have hahead : Precedes (front ++ (first :: inner) ++ after) e p :=
      List.Sublist.trans hfront
        ((List.sublist_append_left _ _).trans (List.sublist_append_left _ _))
    exact hahead.trans h.nodup hgiven

end Opened

namespace Tiled

variable {done : List Dimension}

/-- A part comes from the dimension that it is of, and from one more for every level down to it. -/
theorem part_lineage (h : Tiled levels done c parts c') {p : Dimension} (hp : p ∈ parts d) :
    p.root = d.root ∧
      p.lineage.length ≤ d.lineage.length + if d ∈ done then levels + 1 else 0 := by
  by_cases hd : d ∈ done
  · obtain ⟨hchain, hlength⟩ := h.blocked d hd
    refine ⟨(Dimension.root_of_mem_lineage (isBlock_of_linked hchain p hp).2).symm, ?_⟩
    have hin := List.mem_map_of_mem (f := fun e : Dimension => e.lineage.length) hp
    rw [lineages_of_linked hchain, hlength, List.mem_range'_1] at hin
    rw [if_pos hd]
    omega
  · rw [h.kept d hd, List.mem_singleton] at hp
    rw [hp, if_neg hd]
    exact ⟨rfl, Nat.le_refl _⟩

/-- The innermost part comes from as many. -/
theorem exists_innermost (h : Tiled levels done c parts c') (d : Dimension) :
    ∃ p ∈ parts d, p.lineage.length =
      d.lineage.length + (if d ∈ done then levels + 1 else 0) ∧ (d ∈ done → p.isBlock) := by
  by_cases hd : d ∈ done
  · obtain ⟨hchain, hlength⟩ := h.blocked d hd
    have hin : d.lineage.length + (levels + 1) ∈ (parts d).map (·.lineage.length) := by
      rw [lineages_of_linked hchain, hlength, List.mem_range'_1]
      omega
    obtain ⟨p, hp, hlineage⟩ := List.mem_map.mp hin
    rw [if_pos hd]
    exact ⟨p, hp, hlineage, fun _ => (isBlock_of_linked hchain p hp).1⟩
  · rw [if_neg hd, h.kept d hd]
    exact ⟨d, List.mem_singleton_self d, rfl, fun hin => absurd hin hd⟩

end Tiled

/-- What takes the place of two loops is in the order of the two, unless both are blocked. -/
def KeepsUnblocked (b : Blocking) (c c' : Cluster) (parts : Dimension → List Dimension) : Prop :=
  ∀ outer inner, Precedes c.dimensions outer inner → ¬(b.wants c outer ∧ b.wants c inner) →
    ∀ p ∈ parts outer, ∀ q ∈ parts inner, Precedes c'.dimensions p q

/-- A loop that is not blocked stands between one that is to be blocked and, further outside, a
block of another family, there already or yet to be made, that is deeper than the outermost block of
the former. It may be that deeper block itself. -/
structure Crossed (b : Blocking) (c : Cluster) (outer mid inner : Dimension) : Prop where
  outside : outer = mid ∨ Precedes c.dimensions outer mid
  inside : Precedes c.dimensions mid inner
  stays : ¬b.wants c mid
  wants : b.wants c inner
  block : b.wants c outer ∨ outer.isBlock
  apart : inner.root ≠ outer.root
  deeper : inner.lineage.length + 1 <
    outer.lineage.length + if b.wants c outer then b.levels + 1 else 0

namespace Standing

theorem parts_of_not_wants (h : Standing b c₀ before after front parts c) (hw : ¬b.wants c₀ d) :
    parts d = [d] :=
  h.tiled.kept d fun hin => hw (List.mem_filter.mp hin).2

theorem self_mem_parts (h : Standing b c₀ before after front parts c) (hw : ¬b.wants c₀ d) :
    d ∈ parts d := by
  rw [h.parts_of_not_wants hw]
  exact List.mem_singleton_self d

theorem parts_of_left (h : Standing b c₀ before after front parts c) (hc : b.Blockable c₀)
    (hd : d ∈ after) : parts d = [d] :=
  h.tiled.kept d fun hin => h.notMem_before hc d hd (List.mem_of_mem_filter hin)

/-- The parts of the loops gone past stand in front. -/
theorem part_mem_front (h : Standing b c₀ before after front parts c) (hc : b.Blockable c₀)
    {p : Dimension} (hd : d ∈ before) (hp : p ∈ parts d) : p ∈ front := by
  have hd₀ : d ∈ c₀.dimensions := h.nest ▸ List.mem_append_left _ hd
  have hin := h.loops ▸ h.tiled.mem_of_part hd₀ hp
  refine (List.mem_append.mp hin).resolve_right fun hleft => ?_
  have hp₀ : p ∈ c₀.dimensions := h.nest ▸ List.mem_append_right _ hleft
  have hself : p ∈ parts p := by
    rw [h.parts_of_left hc hleft]
    exact List.mem_singleton_self p
  obtain rfl := h.tiled.eq_of_part h.nodup hd₀ hp₀ hp hself
  exact h.notMem_before hc d hleft hd

/-- Loops that are left are in order with all that is outside them. -/
theorem keeps_left (h : Standing b c₀ before after front parts c) (hc : b.Blockable c₀)
    {outer p q : Dimension} (hprec : Precedes c₀.dimensions outer d) (hd : d ∈ after)
    (hp : p ∈ parts outer) (hq : q ∈ parts d) : Precedes c.dimensions p q := by
  rw [h.parts_of_left hc hd, List.mem_singleton] at hq
  subst hq
  have houter := hprec.left_mem
  have hnd := hc.nodup
  rw [h.nest] at hprec houter hnd
  rw [h.loops]
  rcases List.mem_append.mp houter with hin | hin
  · exact .append (h.part_mem_front hc hin hp) hd
  · rw [h.parts_of_left hc hin, List.mem_singleton] at hp
    subst hp
    exact List.Sublist.trans (hprec.of_append_right hnd hin) (List.sublist_append_right _ _)

/-- A deeper block that a new one is put before, at or before a loop in front, is in the place of a
loop gone past, there from the beginning or made since. -/
theorem exists_source (h : Standing b c₀ before (d :: after) front parts c) (hc : b.Blockable c₀)
    (ho : Opened b.levels c front d after first inner c') {n y p : Dimension}
    (hn : n ∈ first :: inner) (hy : y ∈ c.dimensions) (hdeeper : DeeperApart n y) (hp : p ∈ front)
    (hyp : y = p ∨ c.Chained y p) :
    ∃ outer ∈ before, y ∈ parts outer ∧ (y = p ∨ Precedes c.dimensions y p) ∧
      (b.wants c₀ outer ∨ outer.isBlock) ∧ d.root ≠ outer.root ∧ d.lineage.length + 1 <
        outer.lineage.length + if b.wants c₀ outer then b.levels + 1 else 0 := by
  have hpin : p ∈ c.dimensions := h.loops ▸ List.mem_append_left _ hp
  have hprec : y = p ∨ Precedes c.dimensions y p := hyp.imp_right fun hyp =>
    IntervalGroup.build_precedes_of_path h.settled hyp hy hpin
  have hfront : y ∈ front := by
    rcases hprec with rfl | hprec
    · exact hp
    · have hnd := h.nodup
      rw [h.loops] at hprec hnd
      refine (List.mem_append.mp hprec.left_mem).resolve_right fun hleft => ?_
      have hleft' := (hprec.of_append_right hnd hleft).right_mem
      exact (List.nodup_append.mp hnd).2.2 p hp p hleft' rfl
  obtain ⟨outer, houter, hpart⟩ := h.mem_front hc hfront
  obtain ⟨hroot, hlong⟩ := h.tiled.part_lineage hpart
  simp only [List.mem_filter, houter, true_and] at hlong
  have hnroot : n.root = d.root :=
    (Dimension.root_of_mem_lineage (isBlock_of_linked ho.chain n hn).2).symm
  have hnlong : d.lineage.length + 1 ≤ n.lineage.length := by
    have hin := List.mem_map_of_mem (f := fun e : Dimension => e.lineage.length) hn
    rw [lineages_of_linked ho.chain, List.mem_range'_1] at hin
    exact hin.1
  refine ⟨outer, houter, hpart, hprec, ?_, ?_, ?_⟩
  · by_cases hw : b.wants c₀ outer
    · exact .inl hw
    · rw [h.parts_of_not_wants hw, List.mem_singleton] at hpart
      exact .inr (hpart ▸ hdeeper.block)
  · rw [← hnroot, ← hroot]
    exact hdeeper.apart
  · have hlt := hdeeper.longer
    omega

/-- So where the loops are in order up to here, every loop from there on that stays is crossed. -/
theorem crossed (h : Standing b c₀ before (d :: after) front parts c) (hc : b.Blockable c₀)
    (ho : Opened b.levels c front d after first inner c') (hkeeps : b.KeepsUnblocked c₀ c parts)
    (hw : b.wants c₀ d) {mid n y p : Dimension} (hmid : mid ∈ before) (hstays : ¬b.wants c₀ mid)
    (hn : n ∈ first :: inner) (hy : y ∈ c.dimensions) (hdeeper : DeeperApart n y) (hp : p ∈ front)
    (hyp : y = p ∨ c.Chained y p) (hpm : p = mid ∨ Precedes c.dimensions p mid) :
    ∃ outer, b.Crossed c₀ outer mid d := by
  obtain ⟨outer, houter, hpart, hahead, hblock, hapart, hlong⟩ :=
    h.exists_source hc ho hn hy hdeeper hp hyp
  have hinside : Precedes c₀.dimensions mid d := h.nest ▸ Precedes.of_split hmid
  have hself := h.self_mem_parts hstays
  have hym : y = mid ∨ Precedes c.dimensions y mid := by
    rcases hahead with rfl | hahead
    · exact hpm
    · rcases hpm with rfl | hpm
      · exact .inr hahead
      · exact .inr (hahead.trans h.nodup hpm)
  have hin : outer ∈ c₀.dimensions := h.nest ▸ List.mem_append_left _ houter
  refine ⟨outer, ?_, hinside, hstays, hw, hblock, hapart, hlong⟩
  by_cases hsame : outer = mid
  · exact .inl hsame
  refine .inr ((Precedes.total hin hinside.left_mem hsame).resolve_right fun hback => ?_)
  have hmy := hkeeps mid outer hback (fun hboth => hstays hboth.1) mid hself y hpart
  rcases hym with rfl | hym
  · exact hmy.ne h.nodup rfl
  · exact hmy.asymm h.nodup hym

/-- Where nothing is crossed, what is at or outside a loop that stays keeps its place. -/
theorem keeps_step (h : Standing b c₀ before (d :: after) front parts c) (hc : b.Blockable c₀)
    (ho : Opened b.levels c front d after first inner c')
    (hnew : ∀ n ∈ first :: inner, ∀ v, ¬Linked c.chains n v) (hkeeps : b.KeepsUnblocked c₀ c parts)
    (hfree : ∀ outer mid inner, ¬b.Crossed c₀ outer mid inner) (hw : b.wants c₀ d)
    {mid p q : Dimension} (hmid : mid ∈ before) (hstays : ¬b.wants c₀ mid) (hp : p ∈ front)
    (hpm : p = mid ∨ Precedes c.dimensions p mid) (hpq : Precedes (front ++ (first :: inner)) p q) :
    Precedes c'.dimensions p q := by
  refine ho.keeps h.settled hnew hp hpq fun n hn y hy hdeeper hyp => ?_
  obtain ⟨outer, hcrossed⟩ := h.crossed hc ho hkeeps hw hmid hstays hn hy hdeeper hp hyp hpm
  exact hfree outer mid d hcrossed

end Standing

namespace Walk

/-- Chains lead only from loops of the nest, and from dimensions from which they did so before. -/
theorem linked_source (h : Walk b c₀ before after front parts c) {u v : Dimension}
    (hl : Linked c.chains u v) :
    u ∈ c.dimensions ∨ u ∉ c₀.dimensions ∧ ∃ w, Linked c₀.chains u w := by
  induction h generalizing u v with
  | start =>
    by_cases hu : u ∈ c₀.dimensions
    · exact .inl hu
    · exact .inr ⟨hu, v, hl⟩
  | skip h hw ih => exact ih hl
  | @block _ _ _ _ _ _ _ _ d _ h hw ho hloops ih =>
    rcases ho.link_cases hl with ⟨u', v', huv, rfl, -⟩ | ⟨hu, -⟩
    · by_cases hd : u' = d
      · rw [if_pos hd]
        exact .inl (ho.new_mem List.mem_cons_self)
      · rw [if_neg hd]
        exact (ih huv).imp_left fun hin => ho.kept_mem hin hd
    · exact .inl (ho.new_mem hu)

theorem not_linked_new (h : Walk b c₀ before (d :: after) front parts c) (hc : b.Unforeseen c₀)
    (hw : b.wants c d) (ho : Opened b.levels c front d after first inner c') :
    ∀ n ∈ first :: inner, ∀ v, ¬Linked c.chains n v := by
  intro n hn v hl
  rcases h.linked_source hl with hin | ⟨habsent, w, hl⟩
  · exact ho.notMem n hn hin
  · have hs := h.standing hc.toBlockable
    obtain ⟨hblock, hlineage⟩ := isBlock_of_linked ho.chain n hn
    have hw₀ := (hs.wants_of_left hc.toBlockable List.mem_cons_self).mp hw
    exact hc.unlinked d n w ⟨by simp [hs.nest], hw₀, hblock, hlineage, habsent⟩ hl

/-- Where no loop is crossed, the order is kept all along. -/
theorem keeps (h : Walk b c₀ before after front parts c) (hc : b.Unforeseen c₀)
    (hfree : ∀ outer mid inner, ¬b.Crossed c₀ outer mid inner) :
    b.KeepsUnblocked c₀ c parts := by
  induction h with
  | start =>
    intro outer inner hprec _ p hp q hq
    rw [List.mem_singleton.mp hp, List.mem_singleton.mp hq]
    exact hprec
  | skip h hw ih => exact ih
  | @block before after front front' new parts c c' d first h hw ho hloops ih =>
    intro outer inner hprec hboth p hp q hq
    have hb := hc.toBlockable
    have hs := h.standing hb
    have hs' := (Walk.block h hw ho hloops).standing hb
    rcases List.mem_append.mp (hs'.nest ▸ hprec.right_mem) with hinner | hinner
    swap
    · exact hs'.keeps_left hb hprec hinner hp hq
    have hne : ∀ e ∈ before, e ≠ d := fun e he hed =>
      hs.notMem_before hb d List.mem_cons_self (hed ▸ he)
    have hw₀ := (hs.wants_of_left hb List.mem_cons_self).mp hw
    have hnew := h.not_linked_new hc hw ho
    have hbefore : Precedes (before ++ [d]) outer inner := by
      have hnd := hc.nodup
      rw [hs'.nest] at hprec hnd
      exact hprec.of_append_left hnd hinner
    rcases Precedes.concat_iff.mp hbefore with hbefore | ⟨houter, rfl⟩
    · have houter := hbefore.left_mem
      have hinner := hbefore.right_mem
      rw [Function.update_of_ne (hne outer houter)] at hp
      rw [Function.update_of_ne (hne inner hinner)] at hq
      have hpf := hs.part_mem_front hb houter hp
      have hold := ih outer inner hprec hboth p hp q hq
      have hpq : Precedes (front ++ (first :: new)) p q := by
        have hnd := hs.nodup
        rw [hs.loops] at hold hnd
        exact List.Sublist.trans (hold.of_append_left hnd (hs.part_mem_front hb hinner hq))
          (List.sublist_append_left _ _)
      -- one of the two stays
      by_cases hwi : b.wants c₀ inner
      · have hstays : ¬b.wants c₀ outer := fun hwo => hboth ⟨hwo, hwi⟩
        rw [hs.parts_of_not_wants hstays, List.mem_singleton] at hp
        exact hs.keeps_step hb ho hnew ih hfree hw₀ houter hstays hpf (.inl hp) hpq
      · have hqi := hq
        rw [hs.parts_of_not_wants hwi, List.mem_singleton] at hqi
        exact hs.keeps_step hb ho hnew ih hfree hw₀ hinner hwi hpf (.inr (hqi ▸ hold)) hpq
    · have hstays : ¬b.wants c₀ outer := fun hwo => hboth ⟨hwo, hw₀⟩
      rw [Function.update_of_ne (hne outer houter)] at hp
      rw [Function.update_self] at hq
      have hpf := hs.part_mem_front hb houter hp
      rw [hs.parts_of_not_wants hstays, List.mem_singleton] at hp
      exact hs.keeps_step hb ho hnew ih hfree hw₀ houter hstays hpf (.inl hp) (.append hpf hq)

/-- Where one is crossed, the order is not kept. -/
theorem not_keeps (h : Walk b c₀ before [] front parts c) (hc : b.Blockable c₀)
    {outer mid inner : Dimension} (hcrossed : b.Crossed c₀ outer mid inner) :
    ¬b.KeepsUnblocked c₀ c parts := by
  intro hkeeps
  have hs := h.standing hc
  have hbefore : c₀.dimensions = before := by rw [hs.nest, List.append_nil]
  have hprec : Precedes c₀.dimensions outer inner := by
    rcases hcrossed.outside with rfl | hout
    · exact hcrossed.inside
    · exact hout.trans hc.nodup hcrossed.inside
  obtain ⟨y, hy, hlength, hblock⟩ := hs.tiled.exists_innermost outer
  have hdone : outer ∈ before.filter (b.wants c₀) ↔ b.wants c₀ outer := by
    rw [List.mem_filter, and_iff_right (hbefore ▸ hprec.left_mem)]
  simp only [hdone] at hlength hblock
  have hyblock : y.isBlock := by
    rcases hcrossed.block with hw | hblockouter
    · exact hblock hw
    · by_cases hw : b.wants c₀ outer
      · exact hblock hw
      · rw [hs.parts_of_not_wants hw, List.mem_singleton] at hy
        exact hy ▸ hblockouter
  have hroot := (hs.tiled.part_lineage hy).1
  obtain ⟨p, rest, hparts, hl⟩ := h.linked_back hc (hbefore ▸ hprec) hcrossed.wants hy hyblock
    (hroot ▸ hcrossed.apart) (hlength ▸ hcrossed.deeper)
  have hp : p ∈ parts inner := hparts ▸ List.mem_cons_self
  have hpy : Precedes c.dimensions p y :=
    IntervalGroup.build_precedes_of_path hs.settled (.single hl)
      (hs.tiled.mem_of_part hprec.right_mem hp) (hs.tiled.mem_of_part hprec.left_mem hy)
  have hmid := hs.self_mem_parts hcrossed.stays
  have hmp := hkeeps mid inner hcrossed.inside (fun hboth => hcrossed.stays hboth.1) mid hmid p hp
  rcases hcrossed.outside with rfl | hout
  · rw [hs.parts_of_not_wants hcrossed.stays, List.mem_singleton] at hy
    subst hy
    exact hmp.asymm hs.nodup hpy
  · have hym := hkeeps outer mid hout (fun hboth => hcrossed.stays hboth.2) y hy mid hmid
    exact (hym.trans hs.nodup hmp).asymm hs.nodup hpy

end Walk

end

/-- Blocking keeps any two loops of a nest in order, with all that takes their place, unless it is
to block both, exactly if no loop that stays is between a block and, further inside, a loop of
another family that is to be blocked less deep. -/
theorem apply_keepsUnblocked_iff {b : Blocking} {clusters out : List Cluster} {s s' : State}
    (hc : ∀ c ∈ clusters, b.Unforeseen c) (h : (b.apply clusters).run s = .ok (out, s')) :
    (b.levels = 0 → out = clusters) ∧ (b.levels ≠ 0 → List.Forall₂ (fun c c' => ∃ parts,
      Tiled b.levels (c.dimensions.filter (b.wants c)) c parts c' ∧
        (b.KeepsUnblocked c c' parts ↔ ∀ outer mid inner, ¬b.Crossed c outer mid inner))
      clusters out) := by
  refine ⟨fun hlevels => ?_, fun hlevels => ?_⟩
  · unfold apply at h
    rw [if_pos hlevels] at h
    exact (run_pure h).1
  · have hwalks := apply_walks (fun c hin => (hc c hin).toBlockable) hlevels ⟨s, s', h⟩
    refine hwalks.imp fun c c' hboth => ?_
    obtain ⟨hin, front, parts, hwalk⟩ := hboth
    have hunforeseen := hc c hin
    refine ⟨parts, (hwalk.standing hunforeseen.toBlockable).tiled, fun hkeeps => ?_,
      hwalk.keeps hunforeseen⟩
    exact fun outer mid inner hcrossed =>
      hwalk.not_keeps hunforeseen.toBlockable hcrossed hkeeps

def around (outer inner : Dimension) : Cluster :=
  .along [outer, .basic "t", inner] [] [(outer, [.tilable]), (inner, [.tilable])]

def slabOfY : Dimension := .sub "yl" (.basic "y") (.left (.int 1))

/-- The block over a slab is as deep as the innermost of two blocks over a basic dimension, so the
one is not put before the other, and both stay on their side of `t`. -/
theorem apply_keepsUnblocked_around :
    (⟨1, true⟩ : Blocking).Unforeseen (around (.basic "x") slabOfY) ∧
    ∃ c s parts, ((⟨1, true⟩ : Blocking).apply [around (.basic "x") slabOfY]).run .empty =
        .ok ([c], s) ∧
      c.dimensions.map Dimension.name = ["x0_blk0", "x", "t", "yl0_blk0", "yl"] ∧
      Tiled 1 [.basic "x", slabOfY] (around (.basic "x") slabOfY) parts c ∧
      (⟨1, true⟩ : Blocking).KeepsUnblocked (around (.basic "x") slabOfY) c parts := by
  have hc : (⟨1, true⟩ : Blocking).Unforeseen (around (.basic "x") slabOfY) :=
    .of_unblocked (Cluster.along_unblocked rfl (by decide) (by decide))
  obtain ⟨c, s, hrun, hnames⟩ := exists_of_readings
    (f := fun c => c.dimensions.map Dimension.name) (a := ["x0_blk0", "x", "t", "yl0_blk0", "yl"])
    (r := ((⟨1, true⟩ : Blocking).apply [around (.basic "x") slabOfY]).run .empty)
    (by decide +kernel)
  obtain ⟨⟨parts, htiled, hkeeps⟩, -⟩ := List.forall₂_cons.mp
    ((apply_keepsUnblocked_iff (List.forall_mem_singleton.mpr hc) hrun).2 (by decide))
  have hdone : (around (.basic "x") slabOfY).dimensions.filter
      ((⟨1, true⟩ : Blocking).wants (around (.basic "x") slabOfY)) = [.basic "x", slabOfY] := by
    decide
  refine ⟨hc, c, s, parts, hrun, hnames, hdone ▸ htiled, hkeeps.mpr ?_⟩
  have hfree : ∀ mid ∈ [Dimension.basic "x", .basic "t", slabOfY],
      ¬(⟨1, true⟩ : Blocking).wants (around (.basic "x") slabOfY) mid →
      ∀ inner ∈ [Dimension.basic "x", .basic "t", slabOfY],
      [mid, inner].Sublist [Dimension.basic "x", .basic "t", slabOfY] →
      ∀ outer ∈ [Dimension.basic "x", .basic "t", slabOfY], inner.root ≠ outer.root →
      ¬inner.lineage.length + 1 < outer.lineage.length +
        if (⟨1, true⟩ : Blocking).wants (around (.basic "x") slabOfY) outer then 2 else 0 := by
    decide +kernel
  intro outer mid inner hcrossed
  have houter : outer ∈ [Dimension.basic "x", .basic "t", slabOfY] := by
    rcases hcrossed.outside with rfl | hout
    · exact hcrossed.inside.left_mem
    · exact hout.left_mem
  exact hfree mid hcrossed.inside.left_mem hcrossed.stays inner hcrossed.inside.right_mem
    hcrossed.inside outer houter hcrossed.apart hcrossed.deeper

/-- With a basic dimension in the place of the slab, its block comes before the innermost loop over
`x`, which moves inside of `t`. -/
theorem blocking_crosses_loop :
    (around (.basic "x") (.basic "y")).Unblocked ∧
    Precedes (around (.basic "x") (.basic "y")).dimensions (.basic "x") (.basic "t") ∧
    ¬(⟨1, true⟩ : Blocking).wants (around (.basic "x") (.basic "y")) (.basic "t") ∧
    ∃ c s, ((⟨1, true⟩ : Blocking).apply [around (.basic "x") (.basic "y")]).run .empty =
        .ok ([c], s) ∧
      c.dimensions.map Dimension.name = ["x0_blk0", "t", "y0_blk0", "x", "y"] ∧
      ∃ p, .basic "x" ∈ p.lineage ∧ Precedes c.dimensions (.basic "t") p := by
  obtain ⟨c, s, hrun, hread⟩ := exists_of_readings
    (f := fun c => (c.dimensions.map Dimension.name, decide (∃ p ∈ c.dimensions,
      Dimension.basic "x" ∈ p.lineage ∧ [.basic "t", p].Sublist c.dimensions)))
    (a := (["x0_blk0", "t", "y0_blk0", "x", "y"], true))
    (r := ((⟨1, true⟩ : Blocking).apply [around (.basic "x") (.basic "y")]).run .empty)
    (by decide +kernel)
  simp only [Prod.mk.injEq, decide_eq_true_eq] at hread
  obtain ⟨hnames, p, -, hp, htp⟩ := hread
  have hplain : (around (.basic "x") (.basic "y")).Unblocked :=
    Cluster.along_unblocked rfl (by decide) (by decide)
  have hxt : [Dimension.basic "x", .basic "t"].Sublist
      (around (.basic "x") (.basic "y")).dimensions := by decide
  exact ⟨hplain, hxt, by decide, c, s, hrun, hnames, p, hp, htp⟩

end Blocking
end LoopNest
