import LoopNest.Proofs.RemainderOrder

namespace LoopNest

def Cluster.Aligned (c : Cluster) : Prop := ∀ e ∈ c.equations, e.ispace.dimensions = c.dimensions

namespace Remainder

def slabName (d : Dimension) (slab : Slab) (n : Nat) : String := s!"{d.name}_{slab.tag}{n}"

def IsPart (d : Dimension) (e part : Equation) : Prop :=
  ∃ slab n region, ∃ i : Interval, i.dim = .sub (slabName d slab n) d region ∧ Piece e d i part

def FreshSlabs (c : Cluster) (d : Dimension) : Prop :=
  ∀ slab n region, .sub (slabName d slab n) d region ∉ c.dimensions ∧
    ∀ e ∈ c.equations, ¬e.ispace.intervals.Involves (.sub (slabName d slab n) d region)

/-- The second cluster has the loops of the first one in the same order, with a new sub-dimension in
the place of a dimension, and all other loops have the tags that they had. -/
structure KeepsNest (c : Cluster) (d : Dimension) (c' : Cluster) : Prop where
  loops : ∃ name region, .sub name d region ∉ c.dimensions ∧
    c'.dimensions = c.dimensions.map fun f => if f = d then .sub name d region else f
  tags : ∀ f ∈ c.dimensions, f ≠ d → c'.properties.of f = c.properties.of f

/-- The loops over other parts of the dimension already have the tags that its slabs get. -/
def SharesTags (c : Cluster) (d : Dimension) : Prop :=
  ∀ f ∈ c.dimensions, f.parent? = some d → ∀ t ∈ (c.properties.of d).toList,
    f.isMiddle ∨ t ≠ .tilable → t ∈ (c.properties.of f).toList

theorem freshName_cases {d : Dimension} {slab : Slab} {name : String}
    (h : returns (freshName d slab) name) : ∃ n, name = slabName d slab n := by
  obtain ⟨s, -, h⟩ := Returns.of_bind h
  obtain ⟨-, -, h⟩ := Returns.of_bind h
  exact ⟨_, Returns.of_pure h⟩

def Named (d : Dimension) (slab : Slab) (known : SideSlabs) : Prop :=
  ∀ s ∈ known, ∃ n region, s.2 = .sub (slabName d slab n) d region

theorem sideSlab_named {d dim : Dimension} {slab : Slab} {region : LinExpr → Region}
    {known known' : SideSlabs} {thickness : LinExpr} (hknown : Named d slab known)
    (h : returns (sideSlab d slab region known thickness) (dim, known')) :
    (∃ n region, dim = .sub (slabName d slab n) d region) ∧ Named d slab known' := by
  unfold sideSlab at h
  split at h
  · rename_i s hs
    cases Returns.of_pure h
    exact ⟨hknown s (List.mem_of_find?_eq_some hs), hknown⟩
  · obtain ⟨name, hname, h⟩ := Returns.of_bind h
    obtain ⟨n, rfl⟩ := freshName_cases hname
    cases Returns.of_pure h
    exact ⟨⟨n, _, rfl⟩, List.forall_mem_cons.mpr ⟨⟨n, _, rfl⟩, hknown⟩⟩

section
variable {d : Dimension} {m : Middle} {known known' : SideSlabs} {e : Equation} {i : Interval}
  {out : List Equation}

theorem splitLeft_parts (hknown : Named d .left known)
    (h : returns (splitLeft d m known e i) (out, known')) :
    (∀ part ∈ out, IsPart d e part) ∧ Named d .left known' := by
  obtain ⟨left, -, h⟩ := Returns.of_bind h
  split at h
  · cases Returns.of_pure h
    exact ⟨List.forall_mem_nil _, hknown⟩
  · obtain ⟨thickness, -, h⟩ := Returns.of_bind h
    obtain ⟨⟨dim, known''⟩, hs, h⟩ := Returns.of_bind h
    obtain ⟨part, hp, h⟩ := Returns.of_bind h
    cases Returns.of_pure h
    obtain ⟨⟨n, region, rfl⟩, hknown'⟩ := sideSlab_named hknown hs
    exact ⟨List.forall_mem_singleton.mpr
      ⟨.left, n, region, .closed _ _ _, rfl, retarget_piece (returns_lift hp)⟩, hknown'⟩

theorem splitRight_parts (hknown : Named d .right known)
    (h : returns (splitRight d m known e i) (out, known')) :
    (∀ part ∈ out, IsPart d e part) ∧ Named d .right known' := by
  obtain ⟨right, -, h⟩ := Returns.of_bind h
  split at h
  · cases Returns.of_pure h
    exact ⟨List.forall_mem_nil _, hknown⟩
  · obtain ⟨thickness, -, h⟩ := Returns.of_bind h
    obtain ⟨⟨dim, known''⟩, hs, h⟩ := Returns.of_bind h
    obtain ⟨part, hp, h⟩ := Returns.of_bind h
    cases Returns.of_pure h
    obtain ⟨⟨n, region, rfl⟩, hknown'⟩ := sideSlab_named hknown hs
    exact ⟨List.forall_mem_singleton.mpr
      ⟨.right, n, region, .closed _ _ _, rfl, retarget_piece (returns_lift hp)⟩, hknown'⟩

end

structure Parted (d : Dimension) (siblings parts : List Equation) : Prop where
  source : ∀ part ∈ parts, ∃ e ∈ siblings, IsPart d e part
  part : ∀ e ∈ siblings, ∃ part ∈ parts, IsPart d e part

theorem splitAll_parted {d : Dimension} {m : Middle} {lefts rights : SideSlabs}
    {siblings : List (Equation × Interval)} {out : List Equation}
    (h : returns (splitAll d m lefts rights siblings) out)
    (hm : ∃ n region, m.dim = .sub (slabName d .middle n) d region)
    (hlefts : Named d .left lefts) (hrights : Named d .right rights) :
    Parted d (siblings.map Prod.fst) out := by
  induction siblings generalizing lefts rights out with
  | nil =>
    rw [Returns.of_pure h]
    exact ⟨List.forall_mem_nil _, List.forall_mem_nil _⟩
  | cons s siblings ih =>
    obtain ⟨e, i⟩ := s
    obtain ⟨⟨left, lefts'⟩, hl, h⟩ := Returns.of_bind h
    obtain ⟨centre, hc, h⟩ := Returns.of_bind h
    obtain ⟨⟨right, rights'⟩, hr, h⟩ := Returns.of_bind h
    obtain ⟨rest, hrest, h⟩ := Returns.of_bind h
    obtain ⟨hleft, hlefts'⟩ := splitLeft_parts hlefts hl
    obtain ⟨hright, hrights'⟩ := splitRight_parts hrights hr
    have hcentre : IsPart d e centre := by
      obtain ⟨n, region, hdim⟩ := hm
      exact ⟨.middle, n, region, .closed m.dim .zero .zero, hdim, retarget_piece (returns_lift hc)⟩
    have hothers := ih hrest hlefts' hrights'
    rw [Returns.of_pure h, List.map_cons]
    constructor
    · have hown : ∀ part ∈ left ++ centre :: right, IsPart d e part :=
        List.forall_mem_append.mpr ⟨hleft, List.forall_mem_cons.mpr ⟨hcentre, hright⟩⟩
      intro part hpart
      rcases List.mem_append.mp hpart with hpart | hpart
      · exact ⟨e, List.mem_cons_self, hown part hpart⟩
      · obtain ⟨f, hf, hfrom⟩ := hothers.source part hpart
        exact ⟨f, List.mem_cons_of_mem _ hf, hfrom⟩
    · refine List.forall_mem_cons.mpr ⟨⟨centre, by simp, hcentre⟩, fun f hf => ?_⟩
      obtain ⟨part, hpart, hfrom⟩ := hothers.part f hf
      exact ⟨part, List.mem_append_right _ hpart, hfrom⟩

/-- Where siblings have a range in common, all of them are parted around it. -/
theorem decompose_parted {siblings parts : List Equation} {d : Dimension}
    {intervals : List Interval} {lower upper : LinExpr}
    (hover : List.Forall₂ (fun e i => intervalOver d e = .ok i) siblings intervals)
    (hcommon : commonInterval? intervals = .ok (some (.closed d lower upper)))
    (h : returns (decompose siblings d) parts) : Parted d siblings parts := by
  obtain ⟨name, negated, hname, -, hout⟩ := decompose_splits hover hcommon h
  obtain ⟨n, rfl⟩ := freshName_cases hname
  have hparted := splitAll_parted hout ⟨n, _, rfl⟩ (List.forall_mem_nil _) (List.forall_mem_nil _)
  rwa [List.map_fst_zip hover.length_eq.le] at hparted

/-- A part has the loops of its equation, with a slab in the place of the dimension. -/
theorem IsPart.dimensions {d : Dimension} {e part : Equation} (h : IsPart d e part)
    (hs : e.ispace.Settled)
    (hfresh : ∀ slab n region, ¬e.ispace.intervals.Involves (.sub (slabName d slab n) d region)) :
    d ∈ e.ispace.dimensions ∧ ∃ slab n region, part.ispace.dimensions =
      e.ispace.dimensions.map fun f => if f = d then .sub (slabName d slab n) d region else f := by
  obtain ⟨slab, n, region, i, hi, hpiece⟩ := h
  obtain ⟨group, hg, hspace⟩ := Returns.of_bind (returns_ok hpiece.space)
  obtain ⟨k, hk, hintervals⟩ := IntervalGroup.expand_in_place hs (hi ▸ hfresh slab n region) hg
  obtain ⟨hlt, hdim, -⟩ := List.findIdx?_eq_some_iff_getElem.mp hk
  refine ⟨List.mem_map.mpr ⟨_, List.getElem_mem hlt, of_decide_eq_true hdim⟩,
    slab, n, region, ?_⟩
  rw [Returns.of_pure hspace, IterationSpace.dimensions, IntervalGroup.dimensions, hintervals,
    IntervalGroup.map_dim_replace (IntervalGroup.build_cases hs).1 hk, hi]
  rfl

/-- The loops over parts of the dimension take its tags over, also those that are not new. -/
theorem mem_inheritTags {p : Properties} {d f : Dimension} {parts : List Equation} {t : Property}
    (hf : f ≠ d) : t ∈ ((inheritTags p d parts).of f).toList ↔ t ∈ (p.of f).toList ∨
      (f.parent? = some d ∧ ∃ part ∈ parts, f ∈ part.ispace.dimensions) ∧
        t ∈ (p.of d).toList ∧ (f.isMiddle ∨ t ≠ .tilable) := by
  unfold inheritTags
  dsimp only
  rw [Properties.mem_of_foldl_tag
    (fun slab => (p.of d).toList.filter fun t => slab.isMiddle ∨ t ≠ .tilable),
    Properties.of_drop, if_neg hf]
  simp only [List.mem_flatMap, List.mem_filter, decide_eq_true_eq]
  grind

structure Splits (c : Cluster) (d : Dimension) (cs : List Cluster) : Prop where
  nonempty : ∀ c' ∈ cs, c'.equations ≠ []
  spaces : ∀ c' ∈ cs, ∀ part ∈ c'.equations, part.ispace = c'.ispace
  parted : Parted d c.equations (equationsOf cs)
  tags : ∀ c' ∈ cs, ∀ f ∈ c'.dimensions, f ≠ d → ∀ t, t ∈ (c'.properties.of f).toList ↔
    t ∈ (c.properties.of f).toList ∨
      f.parent? = some d ∧ t ∈ (c.properties.of d).toList ∧ (f.isMiddle ∨ t ≠ .tilable)

theorem splits_of_splitCluster {c : Cluster} {cs : List Cluster}
    (h : returns (splitCluster c) cs) :
    cs = [c] ∨ ∃ d, c.dimensions.find? (diverges c) = some d ∧ Splits c d cs := by
  refine (splitCluster_cases h).imp_right ?_
  rintro ⟨d, parts, hd, hparts, hne, hclusters⟩
  obtain ⟨hequations, hspaces⟩ := Cluster.clusterize_cases hclusters
  have hmembers := Cluster.clusterize_members hclusters
  obtain ⟨intervals, lower, upper, hover, hcommon⟩ :=
    (decompose_cases hparts).resolve_left fun hsame => hne hsame.1
  refine ⟨d, hd, fun c' hc' => (hmembers c' hc').1, hspaces,
    hequations ▸ decompose_parted hover hcommon hparts, fun c' hc' f hf hfd t => ?_⟩
  have hown : ∃ part ∈ parts, f ∈ part.ispace.dimensions := by
    obtain ⟨part, hpart⟩ := List.exists_mem_of_ne_nil _ (hmembers c' hc').1
    exact ⟨part, hequations ▸ List.mem_flatMap.mpr ⟨c', hc', hpart⟩,
      hspaces c' hc' part hpart ▸ hf⟩
  rw [(hmembers c' hc').2, Properties.of_retain, if_pos (decide_eq_true hf), mem_inheritTags hfd]
  simp only [hown, and_true]

/-- New names tell the slab from all other loops, so the loops that stand before it and behind it
can be read off. -/
theorem eq_of_map_replace {l l' : List Dimension} {s s' : Dimension} (hd : d ∈ l)
    (hs : s ∉ l) (hs' : s' ∉ l') (hcross : s ∉ l')
    (h : l.map (fun f => if f = d then s else f) = l'.map fun f => if f = d then s' else f) :
    l = l' := by
  have hsame : s = s' := by
    have hin : s ∈ l'.map fun f => if f = d then s' else f :=
      h ▸ List.mem_map.mpr ⟨d, hd, if_pos rfl⟩
    obtain ⟨f, hf, hfs⟩ := List.mem_map.mp hin
    split_ifs at hfs
    · exact hfs.symm
    · exact absurd (hfs ▸ hf) hcross
  subst hsame
  have hback : ∀ {l : List Dimension}, s ∉ l →
      (l.map fun f => if f = d then s else f).map (fun f => if f = s then d else f) = l := by
    intro l hs
    rw [List.map_map]
    refine (List.map_congr_left fun f hf => ?_).trans (List.map_id l)
    have hfs : f ≠ s := fun he => hs (he ▸ hf)
    by_cases hfd : f = d <;> simp [hfd, hfs]
  rw [← hback hs, h, hback hs']

section
variable {c c' : Cluster} {d : Dimension} {cs : List Cluster}

/-- Every cluster is over the space of a part. -/
theorem Splits.source (h : Splits c d cs) (hc' : c' ∈ cs) :
    ∃ e ∈ c.equations, ∃ part, IsPart d e part ∧ part.ispace = c'.ispace := by
  obtain ⟨part, hpart⟩ := List.exists_mem_of_ne_nil _ (h.nonempty c' hc')
  obtain ⟨e, he, hfrom⟩ := h.parted.source part (List.mem_flatMap.mpr ⟨c', hc', hpart⟩)
  exact ⟨e, he, part, hfrom, h.spaces c' hc' part hpart⟩

/-- Every equation has a part in one of the clusters, over the space of that cluster. -/
theorem Splits.part (h : Splits c d cs) (he : e ∈ c.equations) :
    ∃ c' ∈ cs, ∃ part, IsPart d e part ∧ part.ispace = c'.ispace := by
  obtain ⟨part, hpart, hfrom⟩ := h.parted.part e he
  obtain ⟨c', hc', hpart⟩ := List.mem_flatMap.mp hpart
  exact ⟨c', hc', part, hfrom, h.spaces c' hc' part hpart⟩

/-- If all clusters keep the nest, all equations iterate over it. -/
theorem Splits.aligned (h : Splits c d cs) (hs : ∀ e ∈ c.equations, e.ispace.Settled)
    (hfresh : FreshSlabs c d) (hkeeps : ∀ c' ∈ cs, KeepsNest c d c') : c.Aligned := by
  intro e he
  obtain ⟨c', hc', part, hpart, hspace⟩ := h.part he
  obtain ⟨hde, slab, n, region, hdims⟩ := hpart.dimensions (hs e he) fun slab n region =>
    (hfresh slab n region).2 e he
  obtain ⟨name, region', hnew, hloops⟩ := (hkeeps c' hc').loops
  rw [hspace] at hdims
  exact eq_of_map_replace hde (fun hin => (hfresh slab n region).2 e he (.inl hin)) hnew
    (hfresh slab n region).1 (hdims.symm.trans hloops)

theorem Splits.loops (h : Splits c d cs) (hs : ∀ e ∈ c.equations, e.ispace.Settled)
    (hfresh : FreshSlabs c d) (haligned : c.Aligned) (hc' : c' ∈ cs) :
    ∃ name region, .sub name d region ∉ c.dimensions ∧
      c'.dimensions = c.dimensions.map fun f => if f = d then .sub name d region else f := by
  obtain ⟨e, he, part, hpart, hspace⟩ := h.source hc'
  obtain ⟨-, slab, n, region, hdims⟩ := hpart.dimensions (hs e he) fun slab n region =>
    (hfresh slab n region).2 e he
  rw [hspace, haligned e he] at hdims
  exact ⟨_, region, (hfresh slab n region).1, hdims⟩

/-- The other loops keep their tags exactly if those over parts of the dimension have its tags. -/
theorem Splits.tags_iff (h : Splits c d cs) (hne : cs ≠ [])
    (hloops : ∀ c' ∈ cs, ∀ f ∈ c.dimensions, f ≠ d → f ∈ c'.dimensions) :
    (∀ c' ∈ cs, ∀ f ∈ c.dimensions, f ≠ d → c'.properties.of f = c.properties.of f) ↔
      SharesTags c d := by
  constructor
  · intro hkeeps f hf hparent t ht hkind
    obtain ⟨c', hc'⟩ := List.exists_mem_of_ne_nil cs hne
    have hfd := Dimension.ne_of_parent? hparent
    rw [← hkeeps c' hc' f hf hfd]
    exact (h.tags c' hc' f (hloops c' hc' f hf hfd) hfd t).mpr (.inr ⟨hparent, ht, hkind⟩)
  · intro hshares c' hc' f hf hfd
    refine SortedSet.ext_mem fun t => (h.tags c' hc' f (hloops c' hc' f hf hfd) hfd t).trans ?_
    exact ⟨fun ht => ht.elim id fun ⟨hparent, ht, hkind⟩ => hshares f hf hparent t ht hkind, .inl⟩

end

/-- The clusters that a cluster is split into keep its nest exactly if its equations iterate over
the same loops and those over parts of the dimension have its tags already. -/
theorem Splits.keepsNest_iff {c : Cluster} {d : Dimension} {cs : List Cluster}
    (h : Splits c d cs) (hne : c.equations ≠ [])
    (hs : ∀ e ∈ c.equations, e.ispace.Settled) (hfresh : FreshSlabs c d) :
    (∀ c' ∈ cs, KeepsNest c d c') ↔ c.Aligned ∧ SharesTags c d := by
  have hcs : cs ≠ [] := by
    obtain ⟨e, he⟩ := List.exists_mem_of_ne_nil _ hne
    obtain ⟨c', hc', -⟩ := h.part he
    exact List.ne_nil_of_mem hc'
  have hiff := fun haligned => h.tags_iff hcs (fun c' hc' f hf hfd => by
    obtain ⟨name, region, -, hdims⟩ := h.loops hs hfresh haligned hc'
    rw [hdims]
    exact List.mem_map.mpr ⟨f, hf, if_neg hfd⟩)
  constructor
  · intro hkeeps
    have haligned := h.aligned hs hfresh hkeeps
    exact ⟨haligned, (hiff haligned).mp fun c' hc' => (hkeeps c' hc').tags⟩
  · rintro ⟨haligned, hshares⟩ c' hc'
    exact ⟨h.loops hs hfresh haligned hc', (hiff haligned).mpr hshares c' hc'⟩

end Remainder

structure IntervalGroup.Closed (g : IntervalGroup) : Prop where
  settled : g.Settled
  chains : ∀ chain ∈ g.relations.toList, ∀ d ∈ chain, d ∈ g.dimensions

namespace IntervalGroup.Closed

variable {g h k : IntervalGroup}

/-- Neighbours in a chain stand in its order in the nest. -/
theorem precedes (hg : g.Closed) {chain : List Dimension} (hchain : chain ∈ g.relations.toList)
    {p : Dimension × Dimension} (hp : p ∈ chainPairs chain) : Precedes g.dimensions p.1 p.2 := by
  obtain ⟨-, -, order, horder, hlisted⟩ := build_cases hg.settled
  have hin := precedes_of_mem_chainPairs hp
  have hleft : p.1 ∈ g.intervals.map Interval.dim := hg.chains chain hchain p.1 hin.left_mem
  have hright : p.2 ∈ g.intervals.map Interval.dim := hg.chains chain hchain p.2 hin.right_mem
  rw [build_dimensions hlisted]
  exact (linearExtension?_precedes horder (List.mem_flatMap.mpr ⟨chain, hchain, hp⟩)
    (List.mem_append_right _ hright)).filter (decide_eq_true hleft) (decide_eq_true hright)

/-- Groups over the same dimensions unite into one over these dimensions, in their order. -/
theorem union (hg : g.Closed) (hh : h.Closed) (hdims : h.dimensions = g.dimensions)
    (hk : generate .union [g, h] = .ok k) : k.dimensions = g.dimensions ∧ k.Closed := by
  obtain ⟨intervals, hlisted, hbuild⟩ := generate_cases hk
  have hnd := build_dimensions_nodup hg.settled
  have hlisted : intervals.map Interval.dim = g.dimensions := by
    rw [hlisted, List.flatMap_cons, List.flatMap_singleton, hdims, eraseDups_append_self hnd]
  have hrelations : ∀ chain ∈ k.relations.toList,
      chain ∈ g.relations.toList ∨ chain ∈ h.relations.toList := by
    intro chain hchain
    rw [(build_cases hbuild).2.1, SortedSet.mem_ofList, List.mem_filter] at hchain
    simpa using hchain.1
  have hchains : ∀ chain ∈ k.relations.toList, ∀ d ∈ chain, d ∈ g.dimensions := by
    intro chain hchain d hd
    rcases hrelations chain hchain with hchain | hchain
    · exact hg.chains chain hchain d hd
    · exact hdims ▸ hh.chains chain hchain d hd
  have habsent : absentDimensions (intervals.map Interval.dim) k.relations.toList = [] := by
    refine List.eq_nil_iff_forall_not_mem.mpr fun d hd => ?_
    obtain ⟨hnot, chain, hchain, hin⟩ := mem_absentDimensions.mp hd
    exact hnot (hlisted ▸ hchains chain hchain d hin)
  have hkept : k.intervals = intervals := by
    refine build_suited hbuild g.dimensions (by rw [habsent, hlisted, List.nil_append])
      (by rw [hlisted]; simp) fun chain hchain p hp => ?_
    rcases hrelations chain hchain with hchain | hchain
    · exact hg.precedes hchain hp
    · exact hdims ▸ hh.precedes hchain hp
  have hsame : k.dimensions = g.dimensions := by rw [dimensions, hkept, hlisted]
  exact ⟨hsame, build_settled hbuild, hsame ▸ hchains⟩

theorem expand (hg : g.Closed) {d : Dimension} {i : Interval} (h : g.expand d [i] [] = .ok k) :
    k.Closed := by
  have hdims := expand_dimensions (build_dimensions_nodup hg.settled) h
  obtain ⟨n, -, hbuild⟩ := expand_cases h
  rw [List.append_nil] at hbuild
  refine ⟨build_settled hbuild, fun chain hchain e he => ?_⟩
  obtain ⟨old, hold, rfl⟩ := (mem_relations_renamed hg.settled hbuild).mp hchain
  obtain ⟨f, hf, rfl⟩ := List.mem_map.mp he
  rw [hdims.mem_iff]
  exact List.mem_map_of_mem (hg.chains old hold f hf)

end IntervalGroup.Closed

structure Cluster.Even (c : Cluster) : Prop where
  aligned : c.Aligned
  nest : c.ispace.intervals.Closed
  equations : ∀ e ∈ c.equations, e.ispace.intervals.Closed

theorem Merge.even {xs ys : List Cluster} (hm : Merge xs ys) (h : ∀ c ∈ xs, c.Even) :
    ∀ c ∈ ys, c.Even := by
  have hequations := hm.equationsOf_eq
  obtain ⟨hj⟩ := hm
  rename_i a b c
  rw [List.forall_mem_cons, List.forall_mem_singleton] at h
  obtain ⟨ha, hb⟩ := h
  have hdims := (Cluster.dimensions_eq_of_loops (Fusion.join?_cases hj).1).symm
  obtain ⟨hsame, hclosed⟩ := ha.nest.union hb.nest hdims (Fusion.join?_intervals hj)
  have hall := forall_equations (P := fun e => e.ispace.dimensions = a.dimensions ∧
    e.ispace.intervals.Closed) hequations (by
      rw [List.forall_mem_cons, List.forall_mem_singleton]
      exact ⟨fun e he => ⟨ha.aligned e he, ha.equations e he⟩,
        fun e he => ⟨(hb.aligned e he).trans hdims, hb.equations e he⟩⟩)
  rw [List.forall_mem_singleton] at hall ⊢
  exact ⟨fun e he => (hall e he).1.trans hsame.symm, hclosed, fun e he => (hall e he).2⟩

theorem Remainder.Splits.even {c : Cluster} {d : Dimension} {cs : List Cluster}
    (h : Splits c d cs) (hc : c.Even) : ∀ c' ∈ cs, c'.Even := by
  have hclosed : ∀ {e part : Equation}, e ∈ c.equations → IsPart d e part →
      part.ispace.intervals.Closed := by
    rintro e part he ⟨-, -, -, i, -, hpiece⟩
    obtain ⟨group, hg, hspace⟩ := Returns.of_bind (returns_ok hpiece.space)
    rw [Returns.of_pure hspace]
    exact (hc.equations e he).expand hg
  intro c' hc'
  obtain ⟨e, he, part, hpart, hspace⟩ := h.source hc'
  refine ⟨fun f hf => congrArg IterationSpace.dimensions (h.spaces c' hc' f hf),
    hspace ▸ hclosed he hpart, fun f hf => ?_⟩
  rw [h.spaces c' hc' f hf, ← hspace]
  exact hclosed he hpart

/-- Equations stay in settled spaces, whatever the passes do. -/
theorem Move.settled_spaces {splits : Prop} {xs ys : List Cluster} (hm : Move splits xs ys)
    (h : ∀ c ∈ xs, ∀ e ∈ c.equations, e.ispace.Settled) :
    ∀ c ∈ ys, ∀ e ∈ c.equations, e.ispace.Settled := by
  cases hm with
  | exchange hm =>
    obtain ⟨-⟩ := hm
    exact fun c hc => h c (List.mem_append.mpr (List.mem_append.mp hc).symm)
  | merge hm => exact forall_equations hm.equationsOf_eq h
  | block hm => exact forall_equations hm.equationsOf_eq h
  | promote hm => exact forall_equations hm.equationsOf_eq h
  | split _ hm =>
    obtain ⟨hsplit⟩ := hm
    rcases Remainder.splits_of_splitCluster hsplit with rfl | ⟨d, -, hsplits⟩
    · exact h
    · intro c' hc' part hpart
      obtain ⟨e, -, -, -, -, i, -, hpiece⟩ :=
        hsplits.parted.source part (List.mem_flatMap.mpr ⟨c', hc', hpart⟩)
      exact IterationSpace.expand_settled hpiece.space

namespace Pipeline

/-- The passes that leave the loops of equations and clusters in step. -/
def evenPasses : List String := ["toposort", "fuse", "topofuse", "remainder"]

theorem runPass_even {config : Config} {pass : String} {clusters : List Cluster}
    {r : List Cluster × List Dimension} (hpass : pass ∈ evenPasses)
    (h : runPass config pass clusters = .ok r) (hc : ∀ c ∈ clusters, c.Even) :
    ∀ c ∈ r.1, c.Even := by
  rcases runPass_cases h with ⟨-, -, h⟩ | ⟨rfl, -⟩ | ⟨rfl, -⟩ | ⟨-, -, h⟩
  · refine h.forall_mem (fun as bs hr has => ?_) hc
    cases hr with
    | exchange h =>
      obtain ⟨-⟩ := h
      exact fun c hc => has c (List.mem_append.mpr (List.mem_append.mp hc).symm)
    | merge h => exact h.even has
  · exact absurd hpass (by decide)
  · exact absurd hpass (by decide)
  · refine (Remainder.apply_splits h).forall_mem (fun as bs hr has => ?_) hc
    obtain ⟨hsplit⟩ := hr
    rcases Remainder.splits_of_splitCluster hsplit with rfl | ⟨d, -, hsplits⟩
    · exact has
    · exact hsplits.even (List.forall_mem_singleton.mp has)

/-- What a pass keeps true of all clusters is true after the passes that came before. -/
theorem foldlM_forall_mem {config : Config} {P : Cluster → Prop} {passes : List String}
    {start done : Outcome} (h : passes.foldlM (addPass config) start = .ok done)
    (hpass : ∀ pass ∈ passes, ∀ cs r, runPass config pass cs = .ok r → (∀ c ∈ cs, P c) →
      ∀ c ∈ r.1, P c) (hstart : ∀ c ∈ start.clusters, P c) : ∀ c ∈ done.clusters, P c := by
  refine returns_foldlM (P := fun _ (done : Outcome) => ∀ c ∈ done.clusters, P c) (returns_ok h)
    hstart ?_
  intro _ pass done next hin hdone hnext
  obtain ⟨r, hr, hnext⟩ := Returns.of_bind (returns_ok hnext)
  rw [Returns.of_pure hnext]
  exact hpass pass hin _ r (mapError_ok hr) hdone

end Pipeline

namespace Remainder

/-- The clusters that a cluster becomes: the cluster as it is, or clusters that keep its nest
exactly if all its equations iterate over its loops and the loops over parts of the split dimension
have the tags of that dimension. -/
theorem splitCluster_keepsNest_iff {c : Cluster} {cs : List Cluster}
    (h : returns (splitCluster c) cs) (hs : ∀ e ∈ c.equations, e.ispace.Settled) :
    cs = [c] ∨ ∃ d, c.dimensions.find? (diverges c) = some d ∧
      (FreshSlabs c d → ((∀ c' ∈ cs, KeepsNest c d c') ↔ c.Aligned ∧ SharesTags c d)) := by
  refine (splits_of_splitCluster h).imp_right ?_
  rintro ⟨d, hd, hsplits⟩
  have hne : c.equations ≠ [] := by
    intro hnone
    have hdiverges := List.find?_some hd
    rw [diverges, hnone] at hdiverges
    cases hdiverges
  exact ⟨d, hd, hsplits.keepsNest_iff hne hs⟩

end Remainder

open Remainder in
/-- What the remainder pass keeps, whatever passes ran before. Every cluster stays as it is or is
split along the first dimension in which its equations differ. The clusters it is split into have
its other loops, in the same order and with the same tags, exactly if its equations still iterate
over its dimensions in the same order and the loops over other parts of the split dimension have the
tags of that dimension. Passes that do not block or move loops keep equations and clusters over the
same loops. -/
theorem Pipeline.remainder_keepsNest_iff {config : Config} {before : List String}
    {clusters : List Cluster} {done : Outcome} {r : List Cluster × List Dimension}
    (hbefore : before.foldlM (addPass config) ⟨clusters, [], false, [], .empty⟩ = .ok done)
    (h : runPass config "remainder" done.clusters = .ok r)
    (hs : ∀ c ∈ clusters, ∀ e ∈ c.equations, e.ispace.Settled) :
    (∃ parts, r.1 = parts.flatten ∧ List.Forall₂ (fun c cs => cs = [c] ∨
      ∃ d, c.dimensions.find? (diverges c) = some d ∧
        (FreshSlabs c d → ((∀ c' ∈ cs, KeepsNest c d c') ↔ c.Aligned ∧ SharesTags c d)))
      done.clusters parts) ∧
    ((∀ pass ∈ before, pass ∈ evenPasses) → (∀ c ∈ clusters, c.Even) →
      ∀ c ∈ done.clusters, c.Aligned) := by
  have hspaces : ∀ c ∈ done.clusters, ∀ e ∈ c.equations, e.ispace.Settled :=
    foldlM_forall_mem hbefore (fun pass _ cs r hr hcs =>
      (runPass_moves hr).forall_mem (fun _ _ hm => hm.settled_spaces) hcs) hs
  constructor
  · rcases runPass_cases h with ⟨hpass, -⟩ | ⟨hpass, -⟩ | ⟨hpass, -⟩ | ⟨-, -, happly⟩
    · exact absurd hpass (by decide)
    · exact absurd hpass (by decide)
    · exact absurd hpass (by decide)
    · obtain ⟨parts, hparts, hflat⟩ := returns_map happly
      refine ⟨parts, hflat, ?_⟩
      refine ((List.forall₂_and_left _ _).mpr ⟨hspaces, returns_mapM hparts⟩).imp ?_
      exact fun c cs hc => splitCluster_keepsNest_iff hc.2 hc.1
  · intro hpasses heven c hc
    exact (foldlM_forall_mem hbefore (fun pass hpass cs r hr hcs =>
      runPass_even (hpasses pass hpass) hr hcs) heven c hc).aligned

namespace Remainder

/-- Over basic dimensions no slab is known yet. -/
theorem freshSlabs_of_basic {c : Cluster} (hc : c.Even) (hb : c.IsBasic) (d : Dimension) :
    FreshSlabs c d := by
  have hnot : ∀ {name region}, .sub name d region ∉ c.dimensions := by
    intro name region hin
    obtain ⟨_, hbasic⟩ := hb _ hin
    cases hbasic
  refine fun slab n region => ⟨hnot, fun e he hin => ?_⟩
  have hown : .sub (slabName d slab n) d region ∈ e.ispace.dimensions := by
    rcases hin with hin | ⟨chain, hchain, hin⟩
    · exact hin
    · exact (hc.equations e he).chains chain hchain _ hin
  rw [hc.aligned e he] at hown
  exact hnot hown

theorem sharesTags_of_basic {c : Cluster} (hc : c.IsBasic) (d : Dimension) : SharesTags c d := by
  intro f hf hparent
  obtain ⟨name, rfl⟩ := hc f hf
  cases hparent

def swept (across down : Int64) (array : String) : Equation :=
  ⟨.around "x" array 0, .int 1, .ofIntervals (.ofIntervals
    [.closed (.basic "x") (.int 0) (.int across), .closed (.basic "y") (.int 0) (.int down)]),
    .empty⟩

def uneven (across down : Int64) : Cluster :=
  ⟨[swept across down "u", swept 0 0 "w"], (swept across down "u").ispace, .empty,
    (Properties.empty.tag (.basic "x") [.parallel, .tilable]).tag (.basic "y") [.parallel]⟩

theorem swept_closed (across down : Int64) (array : String) :
    (swept across down array).ispace.intervals.Closed := ⟨rfl, List.forall_mem_nil _⟩

theorem uneven_even (across down : Int64) : (uneven across down).Even := by
  refine ⟨fun e he => ?_, swept_closed across down "u", fun e he => ?_⟩
  · rcases List.mem_pair.mp he with rfl | rfl <;> rfl
  · rcases List.mem_pair.mp he with rfl | rfl <;> exact swept_closed _ _ _

theorem uneven_basic (across down : Int64) : (uneven across down).IsBasic := by
  intro d hd
  rcases List.mem_pair.mp hd with rfl | rfl
  · exact ⟨"x", rfl⟩
  · exact ⟨"y", rfl⟩

end Remainder

open Remainder in
/-- Equations that differ along `x` are split after a pass that changes nothing, and the loop over
`y` is kept. -/
theorem Pipeline.remainder_keepsNest_uneven :
    ∃ done r, ["toposort"].foldlM (addPass .standard) ⟨[uneven 1 0], [], false, [], .empty⟩ =
        .ok done ∧
      runPass .standard "remainder" done.clusters = .ok r ∧
      loopNames r.1 = [["x_mr0", "y"], ["x_rr0", "y"], ["x_mr0", "y"]] ∧
      ∀ c' ∈ r.1, KeepsNest (uneven 1 0) (.basic "x") c' := by
  obtain ⟨done, hbefore, hsame⟩ : ∃ done, ["toposort"].foldlM (addPass .standard)
      ⟨[uneven 1 0], [], false, [], .empty⟩ = .ok done ∧ done.clusters = [uneven 1 0] :=
    ⟨_, rfl, rfl⟩
  have hread : (runPass .standard "remainder" [uneven 1 0]).toOption.map
      (fun r => loopNames r.1) = some [["x_mr0", "y"], ["x_rr0", "y"], ["x_mr0", "y"]] := by
    decide +kernel
  obtain ⟨r, hrun, hnames⟩ := exists_of_toOption hread
  rw [← hsame] at hrun
  have heven := uneven_even 1 0
  have hbasic := uneven_basic 1 0
  obtain ⟨⟨parts, hflat, hparts⟩, hkept⟩ := remainder_keepsNest_iff hbefore hrun
    (List.forall_mem_singleton.mpr fun e he => (heven.equations e he).settled)
  have haligned := hkept (by decide) (List.forall_mem_singleton.mpr heven)
  rw [hsame] at hparts haligned
  obtain _ | ⟨hone, ⟨⟩⟩ := hparts
  rw [List.flatten_cons, List.flatten_nil, List.append_nil] at hflat
  refine ⟨done, r, hbefore, hrun, hnames, ?_⟩
  rcases hone with hone | ⟨d, hd, hiff⟩
  · rw [hflat, hone] at hnames
    exact absurd hnames (by decide)
  · have hx : (uneven 1 0).dimensions.find? (diverges (uneven 1 0)) = some (.basic "x") := rfl
    cases hd.symm.trans hx
    rw [hflat]
    exact (hiff (freshSlabs_of_basic heven hbasic _)).mpr
      ⟨haligned _ List.mem_cons_self, sharesTags_of_basic hbasic _⟩

open Remainder in
/-- Blocked along `x` and split along `y`, a cluster loses the block loop again. -/
theorem Pipeline.split_drops_block :
    (uneven 0 1).Even ∧ (uneven 0 1).IsBasic ∧
    ∃ done r, ["blocking"].foldlM (addPass .standard) ⟨[uneven 0 1], [], false, [], .empty⟩ =
        .ok done ∧
      runPass .standard "remainder" done.clusters = .ok r ∧
      loopNames done.clusters = [["x0_blk0", "x", "y"]] ∧
      loopNames r.1 = [["x", "y_mr0"], ["x", "y_rr0"], ["x", "y_mr0"]] ∧
      ∀ c ∈ done.clusters, ∀ c' ∈ r.1, ∀ d, ¬KeepsNest c d c' := by
  have hread : (["blocking"].foldlM (addPass .standard) ⟨[uneven 0 1], [], false, [], .empty⟩ >>=
      fun done => (done, ·) <$> runPass .standard "remainder" done.clusters).toOption.map
      (fun p => (loopNames p.1.clusters, loopNames p.2.1)) =
        some ([["x0_blk0", "x", "y"]], [["x", "y_mr0"], ["x", "y_rr0"], ["x", "y_mr0"]]) := by
    decide +kernel
  obtain ⟨p, hrun, hnames⟩ := exists_of_toOption hread
  obtain ⟨done, hbefore, hrun⟩ := Returns.of_bind (returns_ok hrun)
  obtain ⟨r, hsplit, rfl⟩ := returns_map hrun
  obtain ⟨hdone, hr⟩ := Prod.mk.inj hnames
  refine ⟨uneven_even 0 1, uneven_basic 0 1, done, r, hbefore, hsplit, hdone, hr, ?_⟩
  intro c hc c' hc' d hkeeps
  obtain ⟨name, region, -, hdims⟩ := hkeeps.loops
  have hthree : c.dimensions.length = 3 := by
    have hin := List.mem_map_of_mem (f := fun c => c.dimensions.map Dimension.name) hc
    rw [show done.clusters.map _ = _ from hdone, List.mem_singleton] at hin
    simpa using congrArg List.length hin
  have htwo : c'.dimensions.length = 2 := by
    have hin := List.mem_map_of_mem (f := fun c => c.dimensions.map Dimension.name) hc'
    rw [show r.1.map _ = _ from hr] at hin
    simp only [List.mem_cons, List.not_mem_nil, or_false] at hin
    rcases hin with h | h | h <;> simpa using congrArg List.length h
  have hlength := congrArg List.length hdims
  rw [List.length_map, hthree, htwo] at hlength
  cases hlength

end LoopNest
