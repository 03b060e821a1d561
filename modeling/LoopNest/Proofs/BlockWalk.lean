import LoopNest.Proofs.BlockedLoop
import Mathlib.Data.List.Perm.Subperm

namespace LoopNest
namespace Blocking

section
variable {b : Blocking} {c c' c₀ : Cluster} {d first : Dimension} {levels : Nat}
  {inner before after front : List Dimension} {parts : Dimension → List Dimension}

/-- A cluster in which some dimensions have been blocked. Each of them has given way to its parts,
which are blocks over one another down from it, run its way and carry its tags, except that they are
not tilable; a part also carries tags that the cluster had for it without a loop. All else is as it
was. -/
structure Tiled (levels : Nat) (done : List Dimension) (c : Cluster)
    (parts : Dimension → List Dimension) (c' : Cluster) : Prop where
  equations : c'.equations = c.equations
  dspace : c'.dspace = c.dspace
  within : ∀ d ∈ done, d ∈ c.dimensions
  perm : c'.dimensions.Perm (c.dimensions.flatMap parts)
  kept : ∀ d ∉ done, parts d = [d]
  blocked : ∀ d ∈ done, (d :: parts d).IsChain IsBlockOver ∧ (parts d).length = levels + 1
  directions : ∀ d ∈ c.dimensions, ∀ p ∈ parts d, c'.ispace.direction p = c.ispace.direction d
  undirected : ∀ e, e ∉ c.dimensions → e ∉ c'.dimensions →
    c'.ispace.direction e = c.ispace.direction e
  keptTags : ∀ d ∈ c.dimensions, d ∉ done → c'.properties.find? d = c.properties.find? d
  newTags : ∀ d ∈ done, ∀ p ∈ parts d, ∀ t, t ∈ (c'.properties.of p).toList ↔
    (t ∈ (c.properties.of d).toList ∧ t ≠ .tilable) ∨
      p ∉ c.dimensions ∧ t ∈ (c.properties.of p).toList
  otherTags : ∀ e ∉ c'.dimensions, c'.properties.find? e =
    if e ∈ c.dimensions then none else c.properties.find? e

namespace Tiled

variable {done : List Dimension}

theorem refl (levels : Nat) (c : Cluster) : Tiled levels [] c (fun d => [d]) c where
  equations := rfl
  dspace := rfl
  within _ hd := absurd hd List.not_mem_nil
  perm := .of_eq (List.flatMap_singleton' _).symm
  kept _ _ := rfl
  blocked _ hd := absurd hd List.not_mem_nil
  directions _ _ p hp := by rw [List.mem_singleton.mp hp]
  undirected _ _ _ := rfl
  keptTags _ _ _ := rfl
  newTags _ hd := absurd hd List.not_mem_nil
  otherTags _ he := (if_neg he).symm

theorem mem_of_part (h : Tiled levels done c₀ parts c) {p : Dimension} (hd : d ∈ c₀.dimensions)
    (hp : p ∈ parts d) : p ∈ c.dimensions :=
  h.perm.mem_iff.mpr (List.mem_flatMap.mpr ⟨d, hd, hp⟩)

theorem exists_part (h : Tiled levels done c₀ parts c) {p : Dimension} (hp : p ∈ c.dimensions) :
    ∃ d ∈ c₀.dimensions, p ∈ parts d :=
  List.mem_flatMap.mp (h.perm.mem_iff.mp hp)

theorem eq_of_part (h : Tiled levels done c₀ parts c) (hnd : c.dimensions.Nodup) {d e p : Dimension}
    (hd : d ∈ c₀.dimensions) (he : e ∈ c₀.dimensions) (hpd : p ∈ parts d) (hpe : p ∈ parts e) :
    d = e := by
  have : Std.Symm (Function.onFun List.Disjoint parts) := ⟨fun _ _ h => List.Disjoint.symm h⟩
  by_contra hne
  have hapart := (List.nodup_flatMap.mp (h.perm.nodup_iff.mp hnd)).2
  exact hapart.forall hd he hne hpd hpe

theorem not_tilable_of_part (h : Tiled levels done c₀ parts c) {p : Dimension} (hd : d ∈ done)
    (hp : p ∈ parts d) (hfree : p ∉ c₀.dimensions → ¬c₀.properties.isTilable p) :
    ¬c.properties.isTilable p := by
  intro ht
  rcases (h.newTags d hd p hp .tilable).mp (Properties.isTilable_iff.mp ht) with
    ⟨-, hne⟩ | ⟨hnot, ht⟩
  · exact hne rfl
  · exact hfree hnot (Properties.isTilable_iff.mpr ht)

section
variable (h : Tiled levels done c₀ parts c) (hnd₀ : c₀.dimensions.Nodup) (hnd : c.dimensions.Nodup)
  (hd : d ∈ c₀.dimensions) (hnot : d ∉ done) (ho : Opened levels c front d after first inner c')
include h hnd hd hnot ho

/-- The parts of the other dimensions are untouched when one more dimension is blocked. -/
theorem other_part {e p : Dimension} (he : e ∈ c₀.dimensions) (hne : e ≠ d) (hp : p ∈ parts e) :
    p ≠ d ∧ p ∉ first :: inner := by
  refine ⟨fun hpd => hne ?_, fun hnew => ho.notMem p hnew (h.mem_of_part he hp)⟩
  have hself : d ∈ parts d := by
    rw [h.kept d hnot]
    exact List.mem_singleton_self d
  exact h.eq_of_part hnd he hd (hpd ▸ hp) hself

omit hnd in
include hnd₀ in
theorem opened_perm :
    c'.dimensions.Perm (c₀.dimensions.flatMap (Function.update parts d (first :: inner))) := by
  obtain ⟨pre, post, hsplit⟩ := List.append_of_mem hd
  have hperm := h.perm
  rw [ho.dims, hsplit, List.flatMap_append, List.flatMap_cons, h.kept d hnot,
    List.singleton_append] at hperm
  have hrest : (front ++ after).Perm (pre.flatMap parts ++ post.flatMap parts) :=
    (List.perm_middle.symm.trans (hperm.trans List.perm_middle)).cons_inv
  rw [hsplit, List.nodup_middle, List.nodup_cons, List.mem_append, not_or] at hnd₀
  have hsame : ∀ l : List Dimension, d ∉ l →
      l.flatMap (Function.update parts d (first :: inner)) = l.flatMap parts :=
    fun l hl => List.flatMap_congr fun e he =>
      Function.update_of_ne (ne_of_mem_of_not_mem he hl) _ _
  rw [hsplit, List.flatMap_append, List.flatMap_cons, Function.update_self, hsame _ hnd₀.1.1,
    hsame _ hnd₀.1.2]
  calc c'.dimensions
    List.Perm _ (front ++ (first :: inner) ++ after) := ho.perm
    List.Perm _ ((first :: inner) ++ (front ++ after)) := by
      rw [← List.append_assoc]
      exact List.perm_append_comm.append_right _
    List.Perm _ ((first :: inner) ++ (pre.flatMap parts ++ post.flatMap parts)) :=
      hrest.append_left _
    List.Perm _ (pre.flatMap parts ++ ((first :: inner) ++ post.flatMap parts)) := by
      rw [← List.append_assoc, ← List.append_assoc]
      exact List.perm_append_comm.append_right _

theorem opened_newTags : ∀ e ∈ done ++ [d], ∀ p ∈ Function.update parts d (first :: inner) e,
    ∀ t, t ∈ (c'.properties.of p).toList ↔
      (t ∈ (c₀.properties.of e).toList ∧ t ≠ .tilable) ∨
        p ∉ c₀.dimensions ∧ t ∈ (c₀.properties.of p).toList := by
  intro e he p hp t
  by_cases hed : e = d
  · subst hed
    rw [Function.update_self] at hp
    have hown : c.properties.of e = c₀.properties.of e := by
      rw [Properties.of, Properties.of, h.keptTags e hd hnot]
    rw [ho.mem_tags hp, hown, Properties.of, h.otherTags p (ho.notMem p hp), or_comm]
    by_cases hp₀ : p ∈ c₀.dimensions
    · simp [hp₀, SortedSet.empty]
    · rw [if_neg hp₀, and_iff_right hp₀]
      rfl
  · rw [Function.update_of_ne hed] at hp
    have he := (List.mem_append.mp he).resolve_right fun he => hed (List.mem_singleton.mp he)
    obtain ⟨hpd, hpn⟩ := h.other_part hnd hd hnot ho (h.within e he) hed hp
    have hsame : c'.properties.of p = c.properties.of p := by
      rw [Properties.of, Properties.of, ho.find?_tags hpn, if_neg hpd]
    rw [hsame]
    exact h.newTags e he p hp t

theorem opened_directions : ∀ e ∈ c₀.dimensions,
    ∀ p ∈ Function.update parts d (first :: inner) e,
      c'.ispace.direction p = c₀.ispace.direction e := by
  intro e he p hp
  rw [ho.directions]
  by_cases hed : e = d
  · subst hed
    rw [Function.update_self] at hp
    rw [if_pos hp]
    exact h.directions e he e (h.kept e hnot ▸ List.mem_singleton_self e)
  · rw [Function.update_of_ne hed] at hp
    obtain ⟨hpd, hpn⟩ := h.other_part hnd hd hnot ho he hed hp
    rw [if_neg hpn, if_neg hpd]
    exact h.directions e he p hp

/-- One more dimension is blocked. -/
theorem opened (hnd₀ : c₀.dimensions.Nodup) :
    Tiled levels (done ++ [d]) c₀ (Function.update parts d (first :: inner)) c' where
  equations := ho.equations.trans h.equations
  dspace := ho.dspace.trans h.dspace
  within := List.forall_mem_append.mpr ⟨h.within, List.forall_mem_singleton.mpr hd⟩
  perm := h.opened_perm hnd₀ hd hnot ho
  kept e he := by
    rw [List.mem_append, List.mem_singleton, not_or] at he
    rw [Function.update_of_ne he.2]
    exact h.kept e he.1
  blocked e he := by
    by_cases hed : e = d
    · rw [hed, Function.update_self]
      exact ⟨ho.chain, congrArg Nat.succ ho.length⟩
    · rw [Function.update_of_ne hed]
      exact h.blocked e ((List.mem_append.mp he).resolve_right fun h =>
        hed (List.mem_singleton.mp h))
  directions := h.opened_directions hnd hd hnot ho
  undirected e he₀ he := by
    have hne : e ≠ d := fun hed => he₀ (hed ▸ hd)
    rw [ho.directions, if_neg fun hin => he (ho.new_mem hin), if_neg hne]
    exact h.undirected e he₀ fun hin => he (ho.kept_mem hin hne)
  keptTags e he hnote := by
    rw [List.mem_append, List.mem_singleton, not_or] at hnote
    have hin : e ∈ parts e := h.kept e hnote.1 ▸ List.mem_singleton_self e
    obtain ⟨hed, hen⟩ := h.other_part hnd hd hnot ho he hnote.2 hin
    rw [ho.find?_tags hen, if_neg hed]
    exact h.keptTags e he hnote.1
  newTags := h.opened_newTags hnd hd hnot ho
  otherTags e he := by
    rw [ho.find?_tags fun hin => he (ho.new_mem hin)]
    by_cases hed : e = d
    · rw [if_pos hed, if_pos (hed ▸ hd)]
    · rw [if_neg hed]
      exact h.otherTags e fun hin => he (ho.kept_mem hin hed)

end

end Tiled

structure Upcoming (b : Blocking) (c : Cluster) (d e : Dimension) : Prop where
  mem : d ∈ c.dimensions
  wants : b.wants c d
  block : e.isBlock
  lineage : d ∈ e.lineage
  absent : e ∉ c.dimensions

/-- A cluster that does not anticipate its blocking: no block that is yet to be made is tilable, and
no chain leads to one from a loop inside the loop that it is over. -/
structure Blockable (b : Blocking) (c : Cluster) : Prop where
  settled : c.ispace.Settled
  untagged : ∀ d e, b.Upcoming c d e → ¬c.properties.isTilable e
  unchained : ∀ d e z, b.Upcoming c d e → Precedes c.dimensions d z → ¬c.Chained z e

structure Unforeseen (b : Blocking) (c : Cluster) : Prop extends b.Blockable c where
  unlinked : ∀ d e v, b.Upcoming c d e → ¬Linked c.chains e v

/-- A cluster in which nothing has been blocked does not mention blocks. -/
theorem Unforeseen.of_unblocked (hc : c.Unblocked) : b.Unforeseen c := by
  have hfree : ∀ {d e}, b.Upcoming c d e → ¬c.ispace.intervals.Involves e := by
    intro d e hup hin
    have hblock := hup.block
    rw [hc.plain e hin] at hblock
    cases hblock
  refine ⟨⟨hc.settled, fun d e hup ht => ?_, fun d e z hup _ hpath => ?_⟩, fun d e v hup hev => ?_⟩
  · exact hup.absent (hc.mem_of_isTilable ht)
  · obtain ⟨y, -, hye⟩ := Relation.TransGen.tail'_iff.mp hpath
    exact hfree hup (Cluster.involves_of_linked hye).2
  · exact hfree hup (Cluster.involves_of_linked hev).1

theorem Blockable.nodup (hc : b.Blockable c) : c.dimensions.Nodup :=
  IntervalGroup.build_dimensions_nodup hc.settled

/-- The queue goes through a nest from its outermost loop on. It skips the loops that do not want to
be blocked and blocks the others; what it has gone past comes before the loops that are left. -/
inductive Walk (b : Blocking) (c₀ : Cluster) : List Dimension → List Dimension → List Dimension →
    (Dimension → List Dimension) → Cluster → Prop
  | start : Walk b c₀ [] c₀.dimensions [] (fun d => [d]) c₀
  | skip {before after front : List Dimension} {parts : Dimension → List Dimension} {c : Cluster}
      {d : Dimension} (h : Walk b c₀ before (d :: after) front parts c) (hw : ¬b.wants c d) :
      Walk b c₀ (before ++ [d]) after (front ++ [d]) parts c
  | block {before after front front' inner : List Dimension} {parts : Dimension → List Dimension}
      {c c' : Cluster} {d first : Dimension} (h : Walk b c₀ before (d :: after) front parts c)
      (hw : b.wants c d) (ho : Opened b.levels c front d after first inner c')
      (hloops : c'.dimensions = front' ++ after) :
      Walk b c₀ (before ++ [d]) after front' (Function.update parts d (first :: inner)) c'

structure Standing (b : Blocking) (c₀ : Cluster) (before after front : List Dimension)
    (parts : Dimension → List Dimension) (c : Cluster) : Prop where
  nest : c₀.dimensions = before ++ after
  loops : c.dimensions = front ++ after
  settled : c.ispace.Settled
  tiled : Tiled b.levels (before.filter (b.wants c₀)) c₀ parts c
  paths : ∀ z ∈ after, ∀ x, c.Chained z x → c₀.Chained z x
  innermost : ∀ d, c₀.dimensions.getLast? = some d → ¬b.wants c₀ d →
    c.dimensions.getLast? = some d

theorem wants_iff : b.wants c d ↔
    c.properties.isTilable d ∧ (b.inner ∨ c.dimensions.getLast? ≠ some d) := by
  simp [wants]

namespace Standing

theorem nodup (h : Standing b c₀ before after front parts c) : c.dimensions.Nodup :=
  IntervalGroup.build_dimensions_nodup h.settled

theorem notMem_before (h : Standing b c₀ before after front parts c) (hc : b.Blockable c₀) :
    ∀ e ∈ after, e ∉ before := fun e he hin =>
  (List.nodup_append.mp (h.nest ▸ hc.nodup)).2.2 e hin e he rfl

/-- What stands in front are the parts of the loops gone past. -/
theorem mem_front (h : Standing b c₀ before after front parts c) (hc : b.Blockable c₀)
    {p : Dimension} (hp : p ∈ front) : ∃ d ∈ before, p ∈ parts d := by
  have hin : p ∈ c.dimensions := h.loops ▸ List.mem_append_left _ hp
  obtain ⟨d, hd, hpart⟩ := h.tiled.exists_part hin
  refine ⟨d, ?_, hpart⟩
  rw [h.nest] at hd
  refine (List.mem_append.mp hd).resolve_right fun hafter => ?_
  rw [h.tiled.kept d fun hin => h.notMem_before hc d hafter (List.mem_of_mem_filter hin),
    List.mem_singleton] at hpart
  have hnd := h.loops ▸ h.nodup
  exact (List.nodup_append.mp hnd).2.2 p hp d hafter hpart

/-- A loop that is left is as it was. -/
theorem wants_of_left (h : Standing b c₀ before after front parts c) (hc : b.Blockable c₀)
    (hd : d ∈ after) : b.wants c d ↔ b.wants c₀ d := by
  have hin : d ∈ c₀.dimensions := h.nest ▸ List.mem_append_right _ hd
  have htags : c.properties.isTilable d = c₀.properties.isTilable d := by
    have hfind := h.tiled.keptTags d hin fun hin =>
      h.notMem_before hc d hd (List.mem_of_mem_filter hin)
    rw [Properties.isTilable, Properties.isTilable, Properties.has, Properties.has, Properties.of,
      Properties.of, hfind]
  have hne := List.ne_nil_of_mem hd
  rw [wants_iff, wants_iff, htags, h.loops, h.nest, List.getLast?_append_of_ne_nil _ hne,
    List.getLast?_append_of_ne_nil _ hne]

/-- No chain leads from a loop that is left to one that is made out of the next. -/
theorem not_chained_new (h : Standing b c₀ before (d :: after) front parts c) (hc : b.Blockable c₀)
    (hw : b.wants c d) (ho : Opened b.levels c front d after first inner c') :
    ∀ z ∈ after, ∀ e ∈ first :: inner, ¬c.Chained z e := by
  intro z hz e he hze
  have hpath := h.paths z (List.mem_cons_of_mem _ hz) e hze
  have hd : d ∈ c₀.dimensions := by simp [h.nest]
  have hzin : z ∈ c₀.dimensions := by simp [h.nest, hz]
  by_cases hin : e ∈ c₀.dimensions
  · have hnd := hc.nodup
    have hprec : Precedes c₀.dimensions z e :=
      IntervalGroup.build_precedes_of_path hc.settled hpath hzin hin
    rw [h.nest, List.append_cons] at hprec hnd
    exact ho.notMem_after e he (hprec.of_append_right hnd hz).right_mem
  · obtain ⟨hblock, hlineage⟩ := isBlock_of_linked ho.chain e he
    have hw₀ := (h.wants_of_left hc List.mem_cons_self).mp hw
    refine hc.unchained d e z ⟨hd, hw₀, hblock, hlineage, hin⟩ ?_ hpath
    rw [h.nest]
    exact .to_split hz

/-- What the walk has gone past is not blocked again. -/
theorem not_wants_front (h : Standing b c₀ before after front parts c) (hc : b.Blockable c₀)
    {p : Dimension} (hp : p ∈ front) : ¬b.wants c p := by
  intro hw
  obtain ⟨ht, hplace⟩ := wants_iff.mp hw
  obtain ⟨d, hd, hpart⟩ := h.mem_front hc hp
  have hd₀ : d ∈ c₀.dimensions := h.nest ▸ List.mem_append_left _ hd
  by_cases hw₀ : b.wants c₀ d
  · have hdone : d ∈ before.filter (b.wants c₀) := List.mem_filter.mpr ⟨hd, hw₀⟩
    obtain ⟨hblock, hlineage⟩ := isBlock_of_linked (h.tiled.blocked d hdone).1 p hpart
    refine h.tiled.not_tilable_of_part hdone hpart (fun hnot => ?_) ht
    exact hc.untagged d p ⟨hd₀, hw₀, hblock, hlineage, hnot⟩
  · have hnot : d ∉ before.filter (b.wants c₀) := fun hin => hw₀ (List.mem_filter.mp hin).2
    rw [h.tiled.kept d hnot, List.mem_singleton] at hpart
    subst hpart
    have hfind := h.tiled.keptTags p hd₀ hnot
    rw [Properties.isTilable, Properties.has, Properties.of, hfind] at ht
    refine hw₀ (wants_iff.mpr ⟨ht, hplace.imp_right fun hne hlast => hne ?_⟩)
    exact h.innermost p hlast hw₀

end Standing

theorem Walk.standing (h : Walk b c₀ before after front parts c) (hc : b.Blockable c₀) :
    Standing b c₀ before after front parts c := by
  induction h with
  | start =>
    exact ⟨rfl, rfl, hc.settled, .refl _ _, fun _ _ _ h => h, fun _ h _ => h⟩
  | @skip before after front parts c d h hw ih =>
    have hw₀ : ¬b.wants c₀ d := fun hw₀ => hw ((ih.wants_of_left hc List.mem_cons_self).mpr hw₀)
    refine ⟨by rw [ih.nest, List.append_cons], by rw [ih.loops, List.append_cons], ih.settled, ?_,
      fun z hz => ih.paths z (List.mem_cons_of_mem _ hz), ih.innermost⟩
    rw [List.filter_append, List.filter_cons_of_neg hw₀, List.filter_nil, List.append_nil]
    exact ih.tiled
  | @block before after front front' inner parts c c' d first h hw ho hloops ih =>
    have hw₀ := (ih.wants_of_left hc List.mem_cons_self).mp hw
    have hd : d ∈ c₀.dimensions := by simp [ih.nest]
    have hnot : d ∉ before.filter (b.wants c₀) := fun hin =>
      ih.notMem_before hc d List.mem_cons_self (List.mem_of_mem_filter hin)
    have hnest : c₀.dimensions = (before ++ [d]) ++ after := by rw [ih.nest, List.append_cons]
    refine ⟨hnest, hloops, ho.settled, ?_, fun z hz x hzx => ?_, fun e he hwe => ?_⟩
    · rw [List.filter_append, List.filter_cons_of_pos hw₀, List.filter_nil]
      exact ih.tiled.opened ih.nodup hd hnot ho hc.nodup
    · exact ih.paths z (List.mem_cons_of_mem _ hz) x
        (ho.path_of_tail ih.settled (ih.not_chained_new hc hw ho) hz hzx).1
    · have hne : after ≠ [] := by
        rintro rfl
        rw [hnest, List.append_nil, List.getLast?_concat] at he
        cases he
        exact hwe hw₀
      rw [hnest, List.getLast?_append_of_ne_nil _ hne] at he
      rw [hloops, List.getLast?_append_of_ne_nil _ hne, he]

/-- Where a loop is blocked inside a deeper block, the outermost of its blocks is put before it. -/
theorem Walk.linked_back (h : Walk b c₀ before after front parts c) (hc : b.Blockable c₀)
    {outer y : Dimension} (hprec : Precedes before outer d) (hw : b.wants c₀ d)
    (hy : y ∈ parts outer) (hblock : y.isBlock) (hapart : d.root ≠ y.root)
    (hlong : d.lineage.length + 1 < y.lineage.length) :
    ∃ p rest, parts d = p :: rest ∧ Linked c.chains p y := by
  induction h with
  | start => cases hprec
  | @skip before after front parts c d' h hskip ih =>
    rcases Precedes.concat_iff.mp hprec with hprec | ⟨-, rfl⟩
    · exact ih hprec hy
    · exact absurd (((h.standing hc).wants_of_left hc List.mem_cons_self).mpr hw) hskip
  | @block before after front front' inner parts c c' d' first h hw' ho hloops ih =>
    have hs := h.standing hc
    have hd' : d' ∈ c₀.dimensions := by simp [hs.nest]
    have hne : ∀ e ∈ before, e ≠ d' := fun e he hed =>
      hs.notMem_before hc d' List.mem_cons_self (hed ▸ he)
    have hnot : d' ∉ before.filter (b.wants c₀) := fun hin =>
      hne d' (List.mem_of_mem_filter hin) rfl
    have hmem : ∀ {e}, e ∈ before → e ∈ c₀.dimensions := fun he =>
      hs.nest ▸ List.mem_append_left _ he
    have houter : outer ∈ before := by
      rcases Precedes.concat_iff.mp hprec with hprec | ⟨hin, -⟩
      · exact hprec.left_mem
      · exact hin
    rw [Function.update_of_ne (hne outer houter)] at hy
    have hyd := (hs.tiled.other_part hs.nodup hd' hnot ho (hmem houter) (hne outer houter) hy).1
    rcases Precedes.concat_iff.mp hprec with hprec | ⟨-, rfl⟩
    · have hd := hne d hprec.right_mem
      rw [Function.update_of_ne hd]
      obtain ⟨p, rest, hparts, hl⟩ := ih hprec hy
      have hp : p ∈ parts d := hparts ▸ List.mem_cons_self
      have hpd := (hs.tiled.other_part hs.nodup hd' hnot ho (hmem hprec.right_mem) hd hp).1
      exact ⟨p, rest, hparts, ho.link_kept hl hpd hyd⟩
    · rw [Function.update_self]
      have hfirst := (List.isChain_cons_cons.mp ho.chain).1
      have hdeeper : DeeperApart first y :=
        ⟨hblock, hfirst.root ▸ hapart, hfirst.length_lineage ▸ hlong⟩
      have hyin := hs.tiled.mem_of_part (hmem houter) hy
      exact ⟨first, inner, rfl, ho.linked.mpr
        (linked_append.mpr (.inr (linked_cons.mpr (.inr (linked_levelChains hyin hdeeper)))))⟩

theorem Tiled.length {done : List Dimension} (h : Tiled levels done c₀ parts c) :
    c.dimensions.length =
      c₀.dimensions.length + levels * c₀.dimensions.countP (· ∈ done) := by
  have hsum : ∀ l : List Dimension,
      (l.flatMap parts).length = l.length + levels * l.countP (· ∈ done) := by
    intro l
    induction l with
    | nil => simp
    | cons d l ih =>
      rw [List.flatMap_cons, List.length_append, ih, List.length_cons]
      by_cases hd : d ∈ done
      · have hcount : (d :: l).countP (· ∈ done) = l.countP (· ∈ done) + 1 :=
          List.countP_cons_of_pos (decide_eq_true hd)
        rw [(h.blocked d hd).2, hcount, Nat.mul_succ]
        omega
      · have hcount : (d :: l).countP (· ∈ done) = l.countP (· ∈ done) :=
          List.countP_cons_of_neg (by simpa using hd)
        rw [h.kept d hd, hcount, List.length_singleton]
        omega
  rw [h.perm.length_eq, hsum]

/-- Every loop that is to be blocked adds a number of loops. -/
theorem Standing.size (h : Standing b c₀ before after front parts c) (hc : b.Blockable c₀) :
    c.dimensions.length + b.levels * after.countP (b.wants c₀) =
      c₀.dimensions.length + b.levels * c₀.dimensions.countP (b.wants c₀) := by
  have hbefore : before.countP (· ∈ before.filter (b.wants c₀)) =
      before.countP (b.wants c₀) := by
    refine List.countP_congr fun e he => ?_
    rw [decide_eq_true_eq, List.mem_filter, and_iff_right he]
  have hafter : after.countP (· ∈ before.filter (b.wants c₀)) = 0 := by
    refine List.countP_eq_zero.mpr fun e he hin => ?_
    exact h.notMem_before hc e he (List.mem_of_mem_filter (of_decide_eq_true hin))
  rw [h.tiled.length, h.nest, List.countP_append, List.countP_append, hbefore, hafter, Nat.mul_add,
    Nat.mul_add]
  omega

def Passed (b : Blocking) (c₀ : Cluster) (level : Nat) (c : Cluster) : Prop :=
  ∃ before after front parts, Walk b c₀ before after front parts c ∧ level ≤ front.length + 1

/-- The last of the loops that a run shares is the one of the level. -/
theorem exists_split {outer : List IterationInterval} {l : IterationInterval} {level : Nat}
    (hkey : c.loops.take level = outer) (hlong : level ≤ outer.length)
    (hl : outer.getLast? = some l) :
    ∃ pre post, c.dimensions = pre ++ l.dim :: post ∧ pre.length + 1 = level := by
  obtain ⟨pre, rfl⟩ := List.getLast?_eq_some_iff.mp hl
  refine ⟨pre.map IterationInterval.dim, (c.loops.drop level).map IterationInterval.dim, ?_, ?_⟩
  · have hdims : c.dimensions = c.loops.map IterationInterval.dim :=
      c.ispace.loops_map_dim.symm
    rw [hdims]
    conv_lhs => rw [← List.take_append_drop level c.loops, hkey]
    simp
  · have hshort := List.length_take_le level c.loops
    rw [hkey] at hshort
    simp only [List.length_append, List.length_singleton] at hshort hlong
    rw [List.length_map]
    omega

/-- The loop of a level is the next one that is left, if it has not been passed already. -/
theorem next_left {pre post : List Dimension} (h : front ++ after = pre ++ d :: post)
    (hle : pre.length ≤ front.length) :
    (front = pre ∧ after = d :: post) ∨ pre.length < front.length ∧ d ∈ front := by
  rcases List.append_eq_append_iff.mp h with ⟨more, rfl, rfl⟩ | ⟨more, rfl, hpost⟩
  · obtain rfl : more = [] := by simpa using hle
    exact .inl ⟨(List.append_nil _).symm, rfl⟩
  · cases more with
    | nil => exact .inl ⟨List.append_nil _, hpost.symm⟩
    | cons e more =>
      obtain ⟨rfl, -⟩ := List.cons.inj hpost
      exact .inr ⟨by simp, by simp⟩

theorem Passed.step {level : Nat} (h : b.Passed c₀ level c) (hc : b.Blockable c₀)
    (hlevels : b.levels ≠ 0) {pre post : List Dimension} (hdims : c.dimensions = pre ++ d :: post)
    (hlevel : pre.length + 1 = level)
    (hnext : if b.wants c d then returns (b.block c d) c' else c' = c) :
    b.Passed c₀ (level + 1) c' := by
  obtain ⟨before, after, front, parts, hwalk, hle⟩ := h
  have hs := hwalk.standing hc
  have hnow := next_left (hs.loops ▸ hdims) (by omega)
  by_cases hw : b.wants c d
  · rw [if_pos hw] at hnext
    have hnot : d ∉ front := fun hin => hs.not_wants_front hc hin hw
    obtain ⟨rfl, rfl⟩ := hnow.resolve_right fun h => hnot h.2
    obtain ⟨first, inner, ho⟩ := block_opened hnext hlevels hs.loops hnot
    obtain ⟨front', hperm, hloops⟩ := ho.exists_front hs.settled (hs.not_chained_new hc hw ho)
    refine ⟨_, _, _, _, .block hwalk hw ho hloops, ?_⟩
    rw [hperm.length_eq, List.length_append, List.length_cons]
    omega
  · rw [if_neg hw] at hnext
    subst hnext
    rcases hnow with ⟨rfl, rfl⟩ | ⟨hlt, -⟩
    · refine ⟨_, _, _, _, .skip hwalk hw, ?_⟩
      rw [List.length_append, List.length_singleton]
      omega
    · exact ⟨_, _, _, _, hwalk, by omega⟩

/-- A visit of the queue at a level blocks the loop of this level in every cluster of the run, if it
is to be blocked there. -/
theorem callback_blocks {level : Nat} {run out : List Cluster} {outer : List IterationInterval}
    (hkey : ∀ c ∈ run, c.loops.take level = outer) (hlong : level ≤ outer.length)
    (h : returns (b.callback run outer) out) :
    List.Forall₂ (fun c c' => c ∈ run ∧ (level = 0 ∧ c' = c ∨
      ∃ pre d post, c.dimensions = pre ++ d :: post ∧ pre.length + 1 = level ∧
        if b.wants c d then returns (b.block c d) c' else c' = c)) run out := by
  rcases callback_cases h with ⟨rfl, rfl⟩ | ⟨l, hl, hall⟩
  · exact List.forall₂_same.mpr fun c hin => ⟨hin, .inl ⟨Nat.le_zero.mp hlong, rfl⟩⟩
  · have hin := (List.forall₂_and_left _ _).mpr ⟨fun c hin => hin, hall⟩
    refine hin.imp fun c c' ⟨hc, hnext⟩ => ⟨hc, .inr ?_⟩
    obtain ⟨pre, post, hdims, hlevel⟩ := exists_split (hkey c hc) hlong hl
    exact ⟨pre, l.dim, post, hdims, hlevel, hnext⟩

/-- Every visit takes the queue past one more loop. -/
theorem callback_passed {level : Nat} {run out : List Cluster} {outer : List IterationInterval}
    (hlevels : b.levels ≠ 0) (hkey : ∀ c ∈ run, c.loops.take level = outer)
    (hlong : level ≤ outer.length) (h : returns (b.callback run outer) out) :
    List.Forall₂ (fun c c' => c ∈ run ∧ ∀ c₀ : Cluster, b.Blockable c₀ → b.Passed c₀ level c →
      b.Passed c₀ (level + 1) c') run out := by
  refine (callback_blocks hkey hlong h).imp fun c c' ⟨hin, hnext⟩ => ⟨hin, fun c₀ hc hv => ?_⟩
  rcases hnext with ⟨rfl, rfl⟩ | ⟨pre, d, post, hdims, hlevel, hnext⟩
  · obtain ⟨_, _, _, _, hwalk, _⟩ := hv
    exact ⟨_, _, _, _, hwalk, Nat.le_add_left 1 _⟩
  · exact hv.step hc hlevels hdims hlevel hnext

theorem length_tilable (c : Cluster) : c.properties.tilable.length = tilableCount c := by
  rw [Properties.tilable, tilableCount, SortedMap.values, List.filter_map, List.length_map,
    List.length_map]
  rfl

/-- The loops that are blocked have tilable tags of their own. -/
theorem countP_wants_le (hnd : c.dimensions.Nodup) :
    c.dimensions.countP (b.wants c) ≤ tilableCount c := by
  have hsub : c.dimensions.filter (b.wants c) ⊆ c.properties.tilable := fun d hd =>
    Properties.mem_tilable.mpr (isTilable_of_wants (List.mem_filter.mp hd).2)
  have hle := ((hnd.filter _).subperm hsub).length_le
  rwa [length_tilable, ← List.countP_eq_length_filter] at hle

theorem size_lt_depthBound {clusters : List Cluster} (hin : c ∈ clusters)
    (hnd : c.dimensions.Nodup) :
    c.dimensions.length + b.levels * c.dimensions.countP (b.wants c) < b.depthBound clusters := by
  have hmax : c.dimensions.length + b.levels * tilableCount c ≤
      (clusters.map fun c => c.dimensions.length + b.levels * tilableCount c).foldl max 0 :=
    Queue.le_foldl_max (List.mem_map_of_mem hin)
  have hcount := Nat.mul_le_mul_left b.levels (countP_wants_le (b := b) hnd)
  unfold depthBound
  omega

/-- Once the level is inside the nest, the walk is at its end. -/
theorem Passed.walk {level : Nat} (h : b.Passed c₀ level c) (hc : b.Blockable c₀)
    (hlt : c.dimensions.length < level) :
    ∃ front parts, Walk b c₀ c₀.dimensions [] front parts c := by
  obtain ⟨before, after, front, parts, hwalk, hle⟩ := h
  have hs := hwalk.standing hc
  rw [hs.loops, List.length_append] at hlt
  obtain rfl : after = [] := List.length_eq_zero_iff.mp (by omega)
  have hnest := hs.nest
  rw [List.append_nil] at hnest
  exact ⟨front, parts, hnest ▸ hwalk⟩

/-- The queue goes through every nest to its end. -/
theorem apply_walks {clusters out : List Cluster} (hc : ∀ c ∈ clusters, b.Blockable c)
    (hlevels : b.levels ≠ 0) (h : returns (b.apply clusters) out) :
    List.Forall₂ (fun c c' => c ∈ clusters ∧
      ∃ front parts, Walk b c c.dimensions [] front parts c') clusters out := by
  unfold apply at h
  rw [if_neg hlevels] at h
  have hall := Queue.forall₂_of_returns_applyFirst (P := fun levels level c c' =>
    ∀ c₀ : Cluster, b.Blockable c₀ → b.Passed c₀ level c →
      c₀.dimensions.length + b.levels * c₀.dimensions.countP (b.wants c₀) < levels + level →
        ∃ front parts, Walk b c₀ c₀.dimensions [] front parts c') ?_ ?_ ?_ h
  · refine ((List.forall₂_and_left _ _).mpr ⟨fun c hin => hin, hall⟩).imp fun c c' hboth => ?_
    obtain ⟨hin, hw⟩ := hboth
    refine ⟨hin, hw c (hc c hin) ⟨_, _, _, _, .start, Nat.le_refl 1⟩ ?_⟩
    have hlt := size_lt_depthBound (b := b) hin (hc c hin).nodup
    omega
  · intro level c c₀ hc hp hlt
    refine hp.walk hc ?_
    obtain ⟨before, after, front, parts, hwalk, -⟩ := hp
    have hsize := (hwalk.standing hc).size hc
    omega
  · intro levels level c hshort c₀ hc hp _
    refine hp.walk hc ?_
    rw [← Cluster.length_loops]
    exact hshort
  · intro levels level xs outer ys zs hkey hlong hys hrest
    refine forall₂_trans ?_ (callback_passed hlevels hkey hlong hys) hrest
    intro c c' out hstep hout c₀ hc hp hlt
    exact hout c₀ hc (hstep.2 c₀ hc hp) (by omega)

end

end Blocking
end LoopNest
