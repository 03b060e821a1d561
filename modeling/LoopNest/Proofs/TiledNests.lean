import LoopNest.Proofs.BlockWalk

namespace LoopNest
namespace Blocking

variable {b : Blocking} {clusters out : List Cluster}

/-- A nest that the queue has gone through has no loop left to block. -/
theorem Walk.not_wants {c c' : Cluster} {before front : List Dimension}
    {parts : Dimension → List Dimension} (h : Walk b c before [] front parts c')
    (hc : b.Blockable c) : ∀ d ∈ c'.dimensions, ¬b.wants c' d := by
  have hs := h.standing hc
  intro d hd
  rw [hs.loops, List.append_nil] at hd
  exact hs.not_wants_front hc hd

/-- Where no loop wants to be blocked, blocking changes nothing, the state included. -/
theorem apply_eq_pure (h : ∀ c ∈ clusters, ∀ d ∈ c.dimensions, ¬b.wants c d) :
    b.apply clusters = pure clusters := by
  unfold apply
  split
  · rfl
  refine Queue.applyFirst_eq_pure fun level run outer hrun hkey => ?_
  unfold callback
  split
  · rfl
  · rename_i l hl
    refine (mapM_eq_pure (g := id) fun c hc => ?_).trans (by rw [List.map_id])
    have hin : l ∈ c.loops := by
      have hmem := List.mem_of_getLast? hl
      rw [← hkey c hc] at hmem
      exact List.mem_of_mem_take hmem
    rw [if_neg (h c (hrun c hc) l.dim (Cluster.dim_mem_dimensions hin))]
    rfl

/-- Where a cluster has tags for its own loops only, the parts of a blocked loop carry just its
tags. -/
theorem Tiled.newTags_of_own {levels : Nat} {done : List Dimension} {c c' : Cluster}
    {parts : Dimension → List Dimension} (h : Tiled levels done c parts c')
    (hown : ∀ d, (c.properties.find? d).isSome → d ∈ c.dimensions) {d p : Dimension}
    (hd : d ∈ done) (hp : p ∈ parts d) (t : Property) :
    t ∈ (c'.properties.of p).toList ↔ t ∈ (c.properties.of d).toList ∧ t ≠ .tilable := by
  rw [h.newTags d hd p hp t]
  refine or_iff_left fun ⟨hnot, ht⟩ => hnot (hown p ?_)
  rw [Properties.of] at ht
  cases hfind : c.properties.find? p with
  | none =>
    rw [hfind] at ht
    cases ht
  | some tags => rfl

theorem Tiled.tags_own {levels : Nat} {done : List Dimension} {c c' : Cluster}
    {parts : Dimension → List Dimension} (h : Tiled levels done c parts c')
    (hown : ∀ d, (c.properties.find? d).isSome → d ∈ c.dimensions) :
    ∀ d, (c'.properties.find? d).isSome → d ∈ c'.dimensions := by
  intro d hd
  by_contra hnot
  rw [h.otherTags d hnot] at hd
  split at hd
  · cases hd
  · rename_i habsent
    exact habsent (hown d hd)

/-- Blocking clusters that do not anticipate it blocks exactly the loops that want it, in every
cluster for itself. Each of them gives way to one loop more than there are levels, one the parent of
the next, which run its way and carry its tags, except that they are not tilable; the other loops
and their tags, the equations and the data spaces are as they were. To block the result again
changes nothing. -/
theorem apply_tiles (hlevels : b.levels ≠ 0) (hc : ∀ c ∈ clusters, b.Blockable c)
    (hown : ∀ c ∈ clusters, ∀ d, (c.properties.find? d).isSome → d ∈ c.dimensions) {s s' : State}
    (h : (b.apply clusters).run s = .ok (out, s')) :
    List.Forall₂ (fun c c' => ∃ parts,
      Tiled b.levels (c.dimensions.filter (b.wants c)) c parts c' ∧
      (∀ d ∈ c.dimensions, b.wants c d → ∀ p ∈ parts d, ∀ t,
        t ∈ (c'.properties.of p).toList ↔ t ∈ (c.properties.of d).toList ∧ t ≠ .tilable) ∧
      (∀ e, (c'.properties.find? e).isSome → e ∈ c'.dimensions) ∧
      c'.dimensions.length = c.dimensions.length + b.levels * c.dimensions.countP (b.wants c))
      clusters out ∧
    ∀ t, (b.apply out).run t = .ok (out, t) := by
  have hwalks := apply_walks hc hlevels ⟨s, s', h⟩
  constructor
  · refine hwalks.imp fun c c' hboth => ?_
    obtain ⟨hin, front, parts, hwalk⟩ := hboth
    have hs := hwalk.standing (hc c hin)
    have hsize := hs.size (hc c hin)
    rw [List.countP_nil, Nat.mul_zero, Nat.add_zero] at hsize
    exact ⟨parts, hs.tiled, fun d hd hw p hp => hs.tiled.newTags_of_own (hown c hin)
      (List.mem_filter.mpr ⟨hd, hw⟩) hp, hs.tiled.tags_own (hown c hin), hsize⟩
  · intro t
    have hdone : ∀ c' ∈ out, ∀ d ∈ c'.dimensions, ¬b.wants c' d := by
      intro c' hc'
      obtain ⟨c, -, hin, front, parts, hwalk⟩ := exists_of_forall₂ hwalks.flip hc'
      exact hwalk.not_wants (hc c hin)
    rw [apply_eq_pure hdone]
    rfl

def tilableInside : Cluster :=
  .along [.basic "t", .basic "x", .basic "y"] [[.basic "t", .basic "x"]]
    [(.basic "x", [.parallel, .tilable]), (.basic "y", [.tilable])]

/-- The innermost loop is left alone, if it is not to be blocked, and remains tilable. -/
theorem apply_tiles_inside :
    (⟨2, false⟩ : Blocking).Blockable tilableInside ∧
    (∀ d, (tilableInside.properties.find? d).isSome → d ∈ tilableInside.dimensions) ∧
    ∃ c s, ((⟨2, false⟩ : Blocking).apply [tilableInside]).run .empty = .ok ([c], s) ∧
      c.dimensions.map Dimension.name = ["t", "x0_blk0", "x0_blk1", "x", "y"] ∧
      c.properties.isTilable (.basic "y") ∧
      (∃ parts, Tiled 2 [.basic "x"] tilableInside parts c) ∧
      ∀ t, ((⟨2, false⟩ : Blocking).apply [c]).run t = .ok ([c], t) := by
  have hfree : tilableInside.Unblocked := Cluster.along_unblocked rfl (by decide) (by decide)
  have hc : (⟨2, false⟩ : Blocking).Blockable tilableInside :=
    (Unforeseen.of_unblocked hfree).toBlockable
  obtain ⟨c, s, hrun, hread⟩ := exists_of_readings
    (f := fun c => (c.dimensions.map Dimension.name, c.properties.isTilable (.basic "y")))
    (a := (["t", "x0_blk0", "x0_blk1", "x", "y"], true))
    (r := ((⟨2, false⟩ : Blocking).apply [tilableInside]).run .empty) (by decide +kernel)
  obtain ⟨hnames, htilable⟩ := Prod.mk.inj hread
  obtain ⟨htiled, hagain⟩ := apply_tiles (by decide) (List.forall_mem_singleton.mpr hc)
    (List.forall_mem_singleton.mpr hfree.tags) hrun
  obtain ⟨⟨parts, htiled, -⟩, -⟩ := List.forall₂_cons.mp htiled
  have hdone : tilableInside.dimensions.filter ((⟨2, false⟩ : Blocking).wants tilableInside) =
      [.basic "x"] := by decide
  exact ⟨hc, hfree.tags, c, s, hrun, hnames, htilable, ⟨parts, hdone ▸ htiled⟩, hagain⟩

def blockOverX : Dimension :=
  .block "x0_blk0" (.basic "x") (.symbol "x_m") (.symbol "x_M") (.symbol "x0_blk0_size")

def anticipated : Cluster :=
  .along [.basic "x", .basic "z"] [[.basic "z", blockOverX]]
    [(.basic "x", [.tilable]), (.basic "z", [.tilable])]

/-- Once `x` is blocked, `z` moves to the front of its block, where the queue has been already. So
it stays as it is, tilable, until the result is blocked again. -/
theorem blocking_skips_loop :
    anticipated.ispace.Settled ∧
    (∀ d, (anticipated.properties.find? d).isSome → d ∈ anticipated.dimensions) ∧
    anticipated.dimensions.map Dimension.name = ["x", "z"] ∧
    (∀ d ∈ anticipated.dimensions, (⟨1, true⟩ : Blocking).wants anticipated d) ∧
    ∃ c s, ((⟨1, true⟩ : Blocking).apply [anticipated]).run .empty = .ok ([c], s) ∧
      c.dimensions.map Dimension.name = ["z", "x0_blk0", "x"] ∧
      c.properties.isTilable (.basic "z") ∧
      ∃ c' s', ((⟨1, true⟩ : Blocking).apply [c]).run .empty = .ok ([c'], s') ∧
        c'.dimensions.map Dimension.name = ["z0_blk0", "z", "x0_blk0", "x"] := by
  obtain ⟨c, s, hrun, hread⟩ := exists_of_readings
    (f := fun c => (c.dimensions.map Dimension.name, c.properties.isTilable (.basic "z"),
      readings (fun c => c.dimensions.map Dimension.name)
        (((⟨1, true⟩ : Blocking).apply [c]).run .empty)))
    (a := (["z", "x0_blk0", "x"], true, some [["z0_blk0", "z", "x0_blk0", "x"]]))
    (r := ((⟨1, true⟩ : Blocking).apply [anticipated]).run .empty) (by decide +kernel)
  simp only [Prod.mk.injEq] at hread
  refine ⟨rfl, fun d hd => ?_, by decide, by decide, c, s, hrun, hread.1, hread.2.1,
    exists_of_readings hread.2.2⟩
  have hin := (Cluster.mem_of_foldl_tagged hd).resolve_left Bool.false_ne_true
  exact hin

end Blocking
end LoopNest
