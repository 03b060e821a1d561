import LoopNest.Proofs.BlockHierarchy
import LoopNest.Proofs.Instances
import LoopNest.Proofs.LoopScopes
import LoopNest.Proofs.Tags

namespace LoopNest

namespace Interval

theorem extent_closed {d : Dimension} {lower upper first last : LinExpr}
    (h : (closed d lower upper).extent = .ok (some (first, last))) :
    ∃ low high, d.min = .ok low ∧ d.max = .ok high ∧ low.add lower = .ok first ∧
      high.add upper = .ok last := by
  obtain ⟨low, hlow, h⟩ := Returns.of_bind (returns_ok h)
  obtain ⟨first', hfirst, h⟩ := Returns.of_bind h
  obtain ⟨high, hhigh, h⟩ := Returns.of_bind h
  obtain ⟨last', hlast, h⟩ := Returns.of_bind h
  cases Returns.of_pure h
  exact ⟨low, high, hlow, hhigh, hfirst, hlast⟩

/-- A symbol of a header is one of a bound or of the step. -/
theorem mentions_cases {i : Interval} {s : String} (h : i.Mentions s) :
    (∃ first last, i.extent = .ok (some (first, last)) ∧
      (s ∈ first.freeSymbols ∨ s ∈ last.freeSymbols)) ∨ s ∈ i.dim.step.freeSymbols := by
  unfold Mentions headerSymbols at h
  rcases List.mem_append.mp h with h | h
  · split at h
    · rename_i first last he
      exact .inl ⟨first, last, he, List.mem_append.mp h⟩
    · cases h
  · exact .inr h

theorem mentions_of_extent {i : Interval} {first last : LinExpr} {s : String}
    (h : i.extent = .ok (some (first, last)))
    (hs : s ∈ first.freeSymbols ∨ s ∈ last.freeSymbols) : i.Mentions s := by
  unfold Mentions headerSymbols
  rw [h]
  exact List.mem_append_left _ (List.mem_append.mpr hs)

@[simp] theorem switch_dim (i : Interval) (d : Dimension) : (i.switch d).dim = d := by
  cases i <;> rfl

/-- The outermost block covers what the blocked dimension did. -/
theorem extent_switch {i : Interval} {s : String} {block : Dimension}
    (h : Dimension.blockOver s i.dim = .ok block) : (i.switch block).extent = i.extent := by
  obtain ⟨low, high, hlow, hhigh, rfl⟩ := Dimension.blockOver_cases h
  cases i with
  | null d => rfl
  | closed d lower upper =>
    have hlow : d.min = .ok low := hlow
    have hhigh : d.max = .ok high := hhigh
    simp only [extent, switch, hlow, hhigh]
    rfl

end Interval

/-- The header of a loop within a block mentions the index of the block and sizes. -/
theorem Dimension.Within.mentions {d outer : Dimension} {s : String} (h : d.Within outer)
    (houter : outer.step = .symbol (sizeName outer.name))
    (hd : ∀ t ∈ d.step.freeSymbols, t = sizeName d.name)
    (hm : (Interval.closed d .zero .zero).Mentions s) :
    s = outer.name ∨ s = sizeName outer.name ∨ s = sizeName d.name := by
  have hzero : s ∉ LinExpr.zero.freeSymbols := by
    simp [LinExpr.zero, LinExpr.freeSymbols, LinExpr.int, SortedMap.keys, SortedMap.empty]
  rcases Interval.mentions_cases hm with ⟨first, last, he, hs⟩ | hs
  · obtain ⟨low, high, hlow, hhigh, hfirst, hlast⟩ := Interval.extent_closed he
    obtain ⟨name, high', step, rfl, hhigh'⟩ := h
    obtain rfl : outer.symbol = low := Except.ok.inj hlow
    obtain rfl : high' = high := Except.ok.inj hhigh
    rcases hs with hs | hs
    · have hs := (LinExpr.mem_freeSymbols_add hfirst hs).resolve_right hzero
      exact .inl (List.mem_singleton.mp hs)
    · have hs := (LinExpr.mem_freeSymbols_add hlast hs).resolve_right hzero
      rcases hhigh' s hs with hs | hs
      · exact .inl hs
      · rw [houter] at hs
        exact .inr (.inl (List.mem_singleton.mp hs))
  · exact .inr (.inr (hd s hs))

namespace IntervalGroup

/-- What replacing an interval by several others builds. -/
theorem expand_cases {g g' : IntervalGroup} {d : Dimension} {first : Interval}
    {rest : List Interval} {extra : List (List Dimension)}
    (h : g.expand d (first :: rest) extra = .ok g') :
    ∃ k, g.indexOf? d = some k ∧
      build (g.intervals.take k ++ (first :: rest) ++ g.intervals.drop (k + 1))
        (g.relations.toList.map (·.map fun e => if e = d then first.dim else e) ++ extra) =
          .ok g' := by
  unfold expand at h
  split at h
  · cases h
  · cases h
  · rename_i k head tail hk heq
    cases heq
    exact ⟨k, hk, h⟩

/-- An interval that is found, and the others. -/
theorem perm_others {g : IntervalGroup} {d : Dimension} {k : Nat} {i : Interval}
    (hi : g.find? d = some i) (hk : g.indexOf? d = some k) :
    g.intervals.Perm (i :: (g.intervals.take k ++ g.intervals.drop (k + 1))) := by
  obtain ⟨hlt, -, -⟩ := List.findIdx?_eq_some_iff_getElem.mp hk
  have hget : g.intervals[k] = i := by
    have hfind : g.find? d = (g.indexOf? d).bind (g.intervals[·]?) :=
      List.find?_eq_bind_findIdx?_getElem?
    rw [hi, hk, Option.bind_some, List.getElem?_eq_getElem hlt] at hfind
    exact (Option.some.inj hfind).symm
  have hsplit := (List.take_append_drop k g.intervals).symm
  rw [List.drop_eq_getElem_cons hlt, hget] at hsplit
  exact (List.Perm.of_eq hsplit).trans List.perm_middle

section
variable {g g' : IntervalGroup} {d : Dimension} {first : Interval} {rest : List Interval}
  {extra : List (List Dimension)}

/-- An expanded group has the new intervals and, but for the one in whose place they stand, the
others. -/
theorem expand_perm (h : g.expand d (first :: rest) extra = .ok g') :
    ∃ k, g.indexOf? d = some k ∧ g'.intervals.Perm
      ((first :: rest) ++ (g.intervals.take k ++ g.intervals.drop (k + 1))) := by
  obtain ⟨k, hk, hg⟩ := expand_cases h
  refine ⟨k, hk, (build_perm hg).trans ?_⟩
  exact (List.perm_append_comm.append_right _).trans (.of_eq (List.append_assoc _ _ _))

/-- The additional chains, and those that do not mention the replaced dimension, are kept and put
the dimensions in order. -/
theorem expand_keeps_chain (h : g.expand d (first :: rest) extra = .ok g') {chain : List Dimension}
    (hchain : chain ∈ extra ∨ chain ∈ g.relations.toList ∧ d ∉ chain) (hnd : chain.Nodup)
    {p q : Dimension} (hp : p ∈ g'.dimensions) (hq : q ∈ g'.dimensions)
    (hpq : Precedes chain p q) :
    chain ∈ g'.relations.toList ∧ Precedes g'.dimensions p q := by
  obtain ⟨k, -, hg⟩ := expand_cases h
  have hin : chain ∈ g.relations.toList.map (·.map fun e => if e = d then first.dim else e) ++
      extra := by
    rcases hchain with hin | ⟨hin, hfree⟩
    · exact List.mem_append_right _ hin
    · refine List.mem_append_left _ (List.mem_map.mpr ⟨chain, hin, ?_⟩)
      refine (List.map_congr_left fun e he => ?_).trans (List.map_id chain)
      have hne : e ≠ d := fun h => hfree (h ▸ he)
      simp [hne]
  exact ⟨build_keeps_chain hg hin hpq, build_precedes hg hin hnd hp hq hpq⟩

/-- With another interval at its place, a dimension is renamed. -/
theorem map_dim_replace {intervals : List Interval} {k : Nat} {i : Interval}
    (hnd : (intervals.map Interval.dim).Nodup)
    (hk : intervals.findIdx? (·.dim = d) = some k) :
    (intervals.take k ++ i :: intervals.drop (k + 1)).map Interval.dim =
      (intervals.map Interval.dim).map fun e => if e = d then i.dim else e := by
  induction intervals generalizing k with
  | nil => cases hk
  | cons j rest ih =>
    rw [List.map_cons, List.nodup_cons] at hnd
    rw [List.findIdx?_cons] at hk
    by_cases hj : j.dim = d
    · rw [if_pos (decide_eq_true hj), Option.some.injEq] at hk
      subst hk
      have hothers : ∀ e ∈ rest.map Interval.dim, (if e = d then i.dim else e) = e := by
        intro e he
        refine if_neg fun hd => hnd.1 ?_
        rwa [hj, ← hd]
      rw [List.map_cons, List.map_cons, List.map_congr_left hothers, List.map_id', if_pos hj]
      rfl
    · rw [if_neg (by simpa using hj), Option.map_eq_some_iff] at hk
      obtain ⟨k, hk, rfl⟩ := hk
      rw [List.map_cons, List.map_cons, if_neg hj, ← ih hnd.2 hk]
      rfl

/-- Replacing one interval by another renames its dimension, up to a new order. -/
theorem expand_dimensions {g g' : IntervalGroup} {d : Dimension} {i : Interval}
    (hnd : g.dimensions.Nodup) (h : g.expand d [i] [] = .ok g') :
    g'.dimensions.Perm (g.dimensions.map fun e => if e = d then i.dim else e) := by
  obtain ⟨k, hk, hbuild⟩ := expand_cases h
  rw [List.append_assoc, List.singleton_append] at hbuild
  have hperm := (build_perm hbuild).map Interval.dim
  rwa [map_dim_replace hnd hk] at hperm

/-- A single new interval stands where the old one stood. -/
theorem expand_in_place {i : Interval} (hg : g.Settled) (hnew : ¬g.Involves i.dim)
    (h : g.expand d [i] [] = .ok g') :
    ∃ k, g.indexOf? d = some k ∧
      g'.intervals = g.intervals.take k ++ i :: g.intervals.drop (k + 1) := by
  obtain ⟨k, hk, hbuild⟩ := expand_cases h
  rw [List.append_nil, List.append_assoc, List.singleton_append] at hbuild
  refine ⟨k, hk, build_renamed hg ?_ (map_dim_replace (build_cases hg).1 hk) hbuild⟩
  intro a ha b hb hab
  split_ifs at hab with had hbd hbd
  · rw [had, hbd]
  · exact absurd (hab ▸ hb) hnew
  · exact absurd (hab ▸ ha) hnew
  · exact hab

end

end IntervalGroup

namespace IterationSpace

theorem find?_foldl_insert (m : SortedMap Dimension Direction) (dir : Direction)
    (ds : List Dimension) (d : Dimension) :
    (ds.foldl (fun m e => m.insert e dir) m).find? d =
      if d ∈ ds then some dir else m.find? d := by
  induction ds generalizing m with
  | nil => rfl
  | cons e ds ih =>
    rw [List.foldl_cons, ih, SortedMap.find?_insert]
    by_cases hd : d ∈ ds <;> simp [hd]

/-- New loops run the way of the one they replace, the others as before. -/
theorem direction_expand {s s' : IterationSpace} {old : Dimension} {new : List Interval}
    {extra : List (List Dimension)} (h : s.expand old new extra = .ok s') (d : Dimension) :
    s'.direction d = if d ∈ new.map Interval.dim then s.direction old
      else if d = old then .forward else s.direction d := by
  obtain ⟨group, -, h⟩ := Returns.of_bind (returns_ok h)
  rw [Returns.of_pure h]
  simp only [direction, find?_foldl_insert, SortedMap.find?_erase]
  split
  · rfl
  · split <;> rfl

end IterationSpace

namespace Blocking

theorem blockIntervals_map_dim (i : Interval) (new : List Dimension) :
    (blockIntervals i new).map Interval.dim = new := by
  cases new with
  | nil => rfl
  | cons first rest =>
    rw [blockIntervals, List.map_cons, List.map_map, Interval.switch_dim]
    exact congrArg _ ((List.map_congr_left fun d _ => i.switch_dim d).trans (List.map_id rest))

theorem exists_blockInterval (i : Interval) {new : List Dimension} {d : Dimension} (hd : d ∈ new) :
    ∃ m ∈ blockIntervals i new, m.dim = d := by
  rw [← blockIntervals_map_dim i new] at hd
  exact List.mem_map.mp hd

theorem dim_mem_of_blockIntervals {i m : Interval} {new : List Dimension}
    (hm : m ∈ blockIntervals i new) : m.dim ∈ new :=
  blockIntervals_map_dim i new ▸ List.mem_map_of_mem hm

structure Expansion (c c' : Cluster) (i : Interval) (others : List Interval)
    (new : List Dimension) : Prop where
  found : c.ispace.intervals.find? i.dim = some i
  perm : c.intervals.Perm (i :: others)
  mem : ∀ m, m ∈ c'.intervals ↔ m ∈ others ∨ m ∈ blockIntervals i new
  fresh : ∀ m ∈ others, m.dim ∉ new
  unrepeated : new.Nodup
  distinct : c'.dimensions.Nodup
  chains : ∀ chain, chain = new ∨ chain ∈ c.ispace.intervals.relations.toList ∧ i.dim ∉ chain →
    chain.Nodup → ∀ p ∈ c'.dimensions, ∀ q ∈ c'.dimensions, Precedes chain p q →
      chain ∈ c'.ispace.intervals.relations.toList ∧ Precedes c'.dimensions p q
  directions : ∀ d ∈ new, c'.ispace.direction d = c.ispace.direction i.dim
  undirected : ∀ d ∉ new, d ≠ i.dim → c'.ispace.direction d = c.ispace.direction d
  tags : c'.properties = inheritTags c.properties i.dim new

/-- Blocking a dimension expands it into a hierarchy of blocks, all but the last of which are noted
as created. -/
theorem block_expansion {b : Blocking} {s s' : State} {c c' : Cluster} {d : Dimension}
    (h : (b.block c d).run s = .ok (c', s')) :
    ∃ i others first rest last, i.dim = d ∧ b.Hierarchy d (s.blocked.count d) first rest last ∧
      s'.created = s.created ++ first :: rest ∧
      Expansion c c' i others (first :: (rest ++ [last])) := by
  obtain ⟨blocks, last, i, ispace, hblocks, hlast, hi, hs, rfl, hstate⟩ :=
    block_run_cases h
  have hcreated : s'.created = s.created ++ blocks := congrArg State.created hstate
  obtain ⟨first, rest, rfl, hnest⟩ := hierarchy hblocks hlast
  have hd := IntervalGroup.dim_of_find? hi
  rw [List.cons_append] at hs ⊢
  have hdir := IterationSpace.direction_expand hs
  rw [blockIntervals_map_dim] at hdir
  obtain ⟨group, hg, hs⟩ := Returns.of_bind (returns_ok hs)
  obtain rfl : ispace.intervals = group :=
    congrArg IterationSpace.intervals (Returns.of_pure hs)
  obtain ⟨k, hk, hperm⟩ := IntervalGroup.expand_perm hg
  have hdistinct : ispace.intervals.dimensions.Nodup := by
    obtain ⟨k, -, hg⟩ := IntervalGroup.expand_cases hg
    exact IntervalGroup.build_dimensions_nodup hg
  have hnew := blockIntervals_map_dim i (first :: (rest ++ [last]))
  have hnd := (hperm.map Interval.dim).nodup_iff.mp hdistinct
  rw [List.map_append] at hnd
  obtain ⟨hunrepeated, -, hapart⟩ := List.nodup_append.mp hnd
  refine ⟨i, c.ispace.intervals.intervals.take k ++ c.ispace.intervals.intervals.drop (k + 1),
    first, rest, last, hd, hnest, hcreated, ?_⟩
  exact
    { found := hd.symm ▸ hi
      perm := IntervalGroup.perm_others hi hk
      mem := fun m => hperm.mem_iff.trans (List.mem_append.trans or_comm)
      fresh := fun m hm hin => hapart _ (hnew ▸ hin) _ (List.mem_map_of_mem hm) rfl
      unrepeated := hnew ▸ hunrepeated
      distinct := hdistinct
      chains := fun chain hin hnd p hp q hq hpq =>
        IntervalGroup.expand_keeps_chain hg
          (hin.imp (fun he => he ▸ List.mem_cons_self) fun h => ⟨h.1, hd ▸ h.2⟩) hnd hp hq hpq
      directions := fun e he => by rw [hd]; exact (hdir e).trans (if_pos he)
      undirected := fun e he hne => by
        rw [hd] at hne
        exact (hdir e).trans ((if_neg he).trans (if_neg hne))
      tags := by rw [hd] }

theorem expansion_of_block {b : Blocking} {c c' : Cluster} {d : Dimension}
    (h : returns (b.block c d) c') : ∃ i others new, i.dim = d ∧ Expansion c c' i others new := by
  obtain ⟨s, s', h⟩ := h
  obtain ⟨i, others, first, rest, last, hd, -, -, hx⟩ := block_expansion h
  exact ⟨i, others, _, hd, hx⟩

def Covers (m l : Interval) : Prop :=
  m.dim.parent? = some l.dim ∧ m.extent = l.extent ∧
    m.dim.step = .symbol (Dimension.sizeName m.dim.name)

/-- A loop within another one, the only index that its header mentions. A chain keeps them in order,
and none of the dimensions of the chain will be blocked. -/
def Inside (c : Cluster) (m : Interval) : Prop :=
  ∃ chain ∈ c.ispace.intervals.relations.toList, chain.Nodup ∧
    (∀ q ∈ chain, ¬c.properties.isTilable q) ∧
    ∃ p ∈ c.dimensions, Precedes chain p m.dim ∧ Precedes c.dimensions p m.dim ∧
      ∀ s, m.Mentions s → s = p.name ∨ s = Dimension.sizeName p.name ∨
        s = Dimension.sizeName m.dim.name

/-- What blocking any of its dimensions makes of a cluster. Dimensions still to be blocked have
their loops as before. -/
structure Blocked (c c' : Cluster) : Prop where
  distinct : c' = c ∨ c'.dimensions.Nodup
  present : ∀ d, c'.properties.isTilable d → d ∈ c'.dimensions
  original : ∀ i ∈ c'.intervals, c'.properties.isTilable i.dim → i ∈ c.intervals
  loops : ∀ m ∈ c'.intervals, m ∈ c.intervals ∨ (∃ l ∈ c.intervals, Covers m l) ∨ Inside c' m

theorem Blocked.refl {c : Cluster} (h : ∀ d, c.properties.isTilable d → d ∈ c.dimensions) :
    Blocked c c :=
  ⟨.inl rfl, h, fun _ hi _ => hi, fun _ hm => .inl hm⟩

section
variable {c c₁ c₂ : Cluster} {i : Interval} {others : List Interval} {new : List Dimension}

theorem Expansion.source (h : Expansion c₁ c₂ i others new) : i ∈ c₁.intervals :=
  h.perm.mem_iff.mpr List.mem_cons_self

theorem Expansion.kept (h : Expansion c₁ c₂ i others new) {m : Interval} (hm : m ∈ others) :
    m ∈ c₁.intervals :=
  h.perm.mem_iff.mpr (List.mem_cons_of_mem _ hm)

theorem Expansion.keeps (h : Expansion c₁ c₂ i others new) {m : Interval} (hm : m ∈ c₁.intervals)
    (hne : m.dim ≠ i.dim) : m ∈ others := by
  refine (List.mem_cons.mp (h.perm.mem_iff.mp hm)).resolve_left ?_
  rintro rfl
  exact hne rfl

theorem Expansion.tilable (h : Expansion c₁ c₂ i others new) {d : Dimension}
    (ht : c₂.properties.isTilable d) : c₁.properties.isTilable d ∧ d ≠ i.dim := by
  rw [h.tags] at ht
  exact isTilable_inheritTags.mp ht

/-- Dimensions that are tilable afterwards stay as they are. -/
theorem Expansion.others_of_tilable (h : Expansion c₁ c₂ i others new) {d : Dimension}
    (hin : c₁.properties.isTilable d → d ∈ c₁.dimensions) (ht : c₂.properties.isTilable d) :
    ∃ m ∈ others, m.dim = d := by
  obtain ⟨ht, hne⟩ := h.tilable ht
  obtain ⟨m, hm, rfl⟩ := List.mem_map.mp (hin ht)
  exact ⟨m, h.keeps hm hne, rfl⟩

theorem Expansion.not_tilable (h : Expansion c₁ c₂ i others new) {d : Dimension}
    (hin : c₁.properties.isTilable d → d ∈ c₁.dimensions) (hd : d ∈ new) :
    ¬c₂.properties.isTilable d := by
  intro ht
  obtain ⟨m, hm, rfl⟩ := h.others_of_tilable hin ht
  exact h.fresh m hm hd

theorem Expansion.mem_dimensions (h : Expansion c₁ c₂ i others new) {d : Dimension}
    (hd : d ∈ c₁.dimensions) (hne : d ≠ i.dim) : d ∈ c₂.dimensions := by
  obtain ⟨m, hm, rfl⟩ := List.mem_map.mp hd
  exact Cluster.mem_dimensions_of_mem ((h.mem m).mpr (.inl (h.keeps hm hne)))

theorem Expansion.new_mem_dimensions (h : Expansion c₁ c₂ i others new) {d : Dimension}
    (hd : d ∈ new) : d ∈ c₂.dimensions := by
  obtain ⟨m, hm, rfl⟩ := exists_blockInterval i hd
  exact Cluster.mem_dimensions_of_mem ((h.mem m).mpr (.inr hm))

/-- A loop that stood within another one still does. -/
theorem Expansion.inside (h : Expansion c₁ c₂ i others new) (ht : c₁.properties.isTilable i.dim)
    {m : Interval} (hm : m ∈ c₂.intervals) (hin : Inside c₁ m) : Inside c₂ m := by
  obtain ⟨chain, hchain, hnd, hfree, p, hp, hpm, -, hmentions⟩ := hin
  have hd : i.dim ∉ chain := fun hd => hfree _ hd ht
  have hp₂ := h.mem_dimensions hp fun he => hd (he ▸ hpm.left_mem)
  obtain ⟨hchain₂, hprec⟩ := h.chains chain (.inr ⟨hchain, hd⟩) hnd p hp₂ m.dim
    (Cluster.mem_dimensions_of_mem hm) hpm
  exact ⟨chain, hchain₂, hnd, fun q hq ht => hfree q hq (h.tilable ht).1, p, hp₂, hpm, hprec,
    hmentions⟩

/-- A new loop, unless it is the outermost, stands within the one it was made for. -/
theorem Expansion.inside_new {b : Blocking} {n : Nat} {first last : Dimension}
    {rest : List Dimension} (h : Expansion c₁ c₂ i others (first :: (rest ++ [last])))
    (hc : Blocked c c₁) (hnest : b.Hierarchy i.dim n first rest last) {q : Dimension}
    (hq : q ∈ rest ++ [last]) : Inside c₂ (.closed q .zero .zero) := by
  obtain ⟨p, hwithin, hpq⟩ := exists_precedes_of_isChain hnest.within q hq
  have hp := h.new_mem_dimensions hpq.left_mem
  have hq' := h.new_mem_dimensions hpq.right_mem
  obtain ⟨hkept, hprec⟩ := h.chains _ (.inl rfl) h.unrepeated p hp q hq' hpq
  have hblock : p ∈ first :: rest := by
    have hlast : p ≠ last := by
      rintro rfl
      have hnd := h.unrepeated
      rw [← List.cons_append] at hpq hnd
      cases hpq.mem_after hnd
    have hin := hpq.left_mem
    rw [← List.cons_append, List.mem_append, List.mem_singleton] at hin
    exact hin.resolve_right hlast
  have hsize : ∀ t ∈ q.step.freeSymbols, t = Dimension.sizeName q.name := by
    rcases List.mem_append.mp hq with hq | hq
    · rw [hnest.steps q (List.mem_cons_of_mem _ hq)]
      exact fun t ht => List.mem_singleton.mp ht
    · rw [List.mem_singleton.mp hq, hnest.unit]
      simp [LinExpr.int, LinExpr.freeSymbols, SortedMap.keys, SortedMap.empty]
  exact ⟨_, hkept, h.unrepeated, fun q => h.not_tilable (hc.present q), p, hp, hpq, hprec,
    fun s hs => hwithin.mentions (hnest.steps p hblock) hsize hs⟩

theorem Blocked.step {b : Blocking} {d : Dimension} (hc : Blocked c c₁)
    (ht : c₁.properties.isTilable d) (h : returns (b.block c₁ d) c₂) : Blocked c c₂ := by
  obtain ⟨s, s', h⟩ := h
  obtain ⟨i, others, first, rest, last, rfl, hnest, -, hx⟩ := block_expansion h
  refine ⟨.inr hx.distinct, fun d hd => ?_, fun m hm hd => ?_, fun m hm => ?_⟩
  · obtain ⟨m, hm, rfl⟩ := hx.others_of_tilable (hc.present d) hd
    exact Cluster.mem_dimensions_of_mem ((hx.mem m).mpr (.inl hm))
  · rcases (hx.mem m).mp hm with hm | hm
    · exact hc.original m (hx.kept hm) (hx.tilable hd).1
    · exact absurd hd (hx.not_tilable (hc.present _) (dim_mem_of_blockIntervals hm))
  · rcases (hx.mem m).mp hm with hother | hblock
    · rcases hc.loops m (hx.kept hother) with hold | hcover | hinside
      · exact .inl hold
      · exact .inr (.inl hcover)
      · exact .inr (.inr (hx.inside ht hm hinside))
    · rcases List.mem_cons.mp hblock with rfl | hblock
      · refine .inr (.inl ⟨i, hc.original i hx.source ht, ?_,
          Interval.extent_switch hnest.outermost, ?_⟩)
        · rw [Interval.switch_dim]
          exact Dimension.parent?_of_blockOver hnest.outermost
        · rw [Interval.switch_dim]
          exact hnest.steps first List.mem_cons_self
      · obtain ⟨q, hq, rfl⟩ := List.mem_map.mp hblock
        rw [Interval.zero, Interval.switch_dim]
        exact .inr (.inr (hx.inside_new hc hnest hq))

end

/-- The loops of the result have names of their own. Those that are new are not mentioned in the
headers before, and no size goes by the name of an index. -/
structure FreshNames (c c' : Cluster) : Prop where
  distinct : (c'.dimensions.map Dimension.name).Nodup
  unmentioned : ∀ d ∈ c'.dimensions, d.name ∉ c.dimensions.map Dimension.name →
    ∀ l ∈ c.intervals, ¬l.Mentions d.name
  sizes : ∀ d ∈ c'.dimensions, ∀ e ∈ c'.dimensions, Dimension.sizeName d.name ≠ e.name

instance (c c' : Cluster) : Decidable (FreshNames c c') :=
  decidable_of_iff ((c'.dimensions.map Dimension.name).Nodup ∧
      (∀ d ∈ c'.dimensions, d.name ∉ c.dimensions.map Dimension.name →
        ∀ l ∈ c.intervals, ¬l.Mentions d.name) ∧
      ∀ d ∈ c'.dimensions, ∀ e ∈ c'.dimensions, Dimension.sizeName d.name ≠ e.name)
    ⟨fun h => ⟨h.1, h.2.1, h.2.2⟩, fun h => ⟨h.distinct, h.unmentioned, h.sizes⟩⟩

/-- A loop of the result that mentions an index has its header from a loop that mentions it, or
stands within the loop of that index. -/
theorem Blocked.carried_or_inside {c c' : Cluster} (h : Blocked c c') (hn : FreshNames c c')
    {m : Interval} {d : Dimension} (hm : m ∈ c'.intervals) (hd : d ∈ c'.dimensions)
    (hmentions : m.Mentions d.name) :
    (∃ l ∈ c.intervals, m.Carries l ∧ l.Mentions d.name) ∨ Precedes c'.dimensions d m.dim := by
  rcases h.loops m hm with hold | ⟨l, hl, hparent, hextent, hstep⟩ | hinside
  · exact .inl ⟨m, hold, .inl rfl, hmentions⟩
  · refine .inl ⟨l, hl, .inr ⟨hparent, hextent⟩, ?_⟩
    rcases Interval.mentions_cases hmentions with ⟨first, last, he, hs⟩ | hs
    · exact Interval.mentions_of_extent (hextent ▸ he) hs
    · rw [hstep] at hs
      exact absurd (List.mem_singleton.mp hs).symm
        (hn.sizes _ (Cluster.mem_dimensions_of_mem hm) d hd)
  · obtain ⟨chain, -, -, -, p, hp, -, hprec, hall⟩ := hinside
    rcases hall _ hmentions with hs | hs | hs
    · exact .inr (List.inj_on_of_nodup_map hn.distinct hd hp hs ▸ hprec)
    · exact absurd hs.symm (hn.sizes p hp d hd)
    · exact absurd hs.symm (hn.sizes _ (Cluster.mem_dimensions_of_mem hm) d hd)

/-- Blocking keeps a cluster well scoped exactly if no loop is left outside one whose index its
header mentions. -/
theorem Blocked.wellScoped_iff {c c' : Cluster} (h : Blocked c c') (hn : FreshNames c c')
    (hc : c.WellScoped) : c'.WellScoped ↔ ¬c.Overtaken c' := by
  refine ⟨Cluster.WellScoped.not_overtaken, fun hfree => ?_⟩
  rcases h.distinct with rfl | hnd
  · exact hc
  · refine Cluster.wellScoped_of_precedes hnd fun m hm m' hm' hmentions => ?_
    have hm'd := Cluster.mem_dimensions_of_mem hm'
    rcases h.carried_or_inside hn hm hm'd hmentions with ⟨l, hl, hcarries, hlm⟩ | hprec
    · by_cases hindex : m'.dim.name ∈ c.dimensions.map Dimension.name
      · obtain ⟨d, hd, hname⟩ := List.mem_map.mp hindex
        obtain ⟨l', hl', rfl⟩ := List.mem_map.mp hd
        by_contra hapart
        rw [← hname] at hlm hmentions
        exact hfree ⟨l, hl, l', hl', hc.precedes hl hl' hlm, hlm, m, hm, m', hm', hcarries,
          hname.symm, hmentions, hapart⟩
      · exact absurd hlm (hn.unmentioned _ hm'd hindex l hl)
    · exact hprec

theorem apply_blocked {b : Blocking} {clusters out : List Cluster}
    (h : returns (b.apply clusters) out) :
    List.Forall₂ (fun c c' => (∀ d, c.properties.isTilable d → d ∈ c.dimensions) → Blocked c c')
      clusters out := by
  refine (apply_pointwise h).imp fun c c' hc hown => ?_
  induction hc with
  | refl => exact .refl hown
  | tail _ hstep ih =>
    obtain ⟨d, hw, hstep⟩ := hstep
    exact ih.step (isTilable_of_wants hw) hstep

/-- Blocking keeps the nests well scoped in which no header mentions an index, up to the capture of
names. -/
theorem apply_wellScoped {b : Blocking} {clusters out : List Cluster}
    (h : returns (b.apply clusters) out) (hrect : ∀ c ∈ clusters, c.Rectangular)
    (hown : ∀ c ∈ clusters, ∀ d, c.properties.isTilable d → d ∈ c.dimensions) :
    ∀ c' ∈ out, (∀ c ∈ clusters, FreshNames c c') → c'.WellScoped := by
  intro c' hc' hn
  obtain ⟨c, hin, hb⟩ := exists_of_forall₂ (apply_blocked h).flip hc'
  have hc := hrect c hin
  exact ((hb (hown c hin)).wellScoped_iff (hn c hin) hc.wellScoped).mpr (hc.not_overtaken c')

end Blocking

/-- Interchange and blocking keep clusters well scoped exactly where they do not move a loop out of
one whose index its header mentions. Interchange only moves a loop without dependence components,
past loops that are neither parallel nor of its family; what blocking makes of a cluster is meant up
to the capture of names. -/
theorem wellScoped_iff_not_overtaken {clusters : List Cluster}
    (hscoped : ∀ c ∈ clusters, c.WellScoped) :
    (∀ s out s', (Interchange.apply clusters).run s = .ok (out, s') →
      List.Forall₂ (fun c c' => (c'.WellScoped ↔ ¬c.Overtaken c') ∧
        (c.dimensions.Nodup → ∀ d e, Precedes c.dimensions d e → Precedes c'.dimensions e d →
          c.properties.isParallelIndep e ∧ c.properties.isParallel d = false ∧
            d.sharesRoot e = false)) clusters out) ∧
    ∀ (b : Blocking) s out s', (b.apply clusters).run s = .ok (out, s') →
      List.Forall₂ (fun c c' => (∀ d, c.properties.isTilable d → d ∈ c.dimensions) →
        Blocking.FreshNames c c' → (c'.WellScoped ↔ ¬c.Overtaken c')) clusters out := by
  constructor
  · intro s out s' h
    have hall := (List.forall₂_and_left _ _).mpr ⟨hscoped, Interchange.apply_promoted ⟨s, s', h⟩⟩
    exact hall.imp fun c c' ⟨hc, hp⟩ => ⟨hp.wellScoped_iff hc, hp.swapped⟩
  · intro b s out s' h
    have hall := (List.forall₂_and_left _ _).mpr ⟨hscoped, Blocking.apply_blocked ⟨s, s', h⟩⟩
    exact hall.imp fun c c' ⟨hc, hb⟩ hown hn => (hb hown).wellScoped_iff hn hc

def Cluster.pair (lower : LinExpr) : Cluster :=
  let loops : List Interval := [.closed (.basic "x") .zero .zero, .closed (.basic "y") lower .zero]
  let e : Equation := ⟨.around "y" "u" 0, .int 1, .ofIntervals (.ofIntervals loops), .empty⟩
  ((Cluster.ofEquation e .empty).tagged (.basic "x") [.sequential, .tilable]).tagged (.basic "y")
    [.parallelIndep, .tilable]

theorem Cluster.pair_own {lower : LinExpr} :
    ∀ d, (pair lower).properties.isTilable d → d ∈ (pair lower).dimensions := by
  intro d hd
  have hd : ((Properties.empty.tag (.basic "x") [.sequential, .tilable]).tag (.basic "y")
    [.parallelIndep, .tilable]).isTilable d := hd
  rw [Properties.isTilable_iff, Properties.of_tag] at hd
  split at hd
  · rename_i hy
    exact hy ▸ List.mem_cons_of_mem _ List.mem_cons_self
  · rw [Properties.of_tag] at hd
    split at hd
    · rename_i hx
      exact hx ▸ List.mem_cons_self
    · cases hd

def readings (f : Cluster → α) (r : Except Failure (List Cluster × σ)) : Option (List α) :=
  r.toOption.map fun p => p.1.map f

theorem exists_of_readings {f : Cluster → α} {r : Except Failure (List Cluster × σ)} {a : α}
    (h : readings f r = some [a]) : ∃ c s, r = .ok ([c], s) ∧ f c = a := by
  obtain ⟨⟨clusters, s⟩, rfl, hf⟩ := exists_of_toOption h
  obtain ⟨c, rfl, hc⟩ := List.map_eq_singleton_iff.mp hf
  exact ⟨c, s, rfl, hc⟩

/-- A rectangular nest stays well scoped when its loops change places and when they are blocked. -/
theorem wellScoped_iff_not_overtaken_rectangular :
    (Cluster.pair .zero).WellScoped ∧
    (∃ c s, (Interchange.apply [.pair .zero]).run .empty = .ok ([c], s) ∧
      c.dimensions.map Dimension.name = ["y", "x"] ∧
      ¬(Cluster.pair .zero).Overtaken c) ∧
    ∃ c s, ((⟨1, true⟩ : Blocking).apply [.pair .zero]).run .empty = .ok ([c], s) ∧
      c.dimensions.map Dimension.name = ["x0_blk0", "y0_blk0", "x", "y"] ∧
      ¬(Cluster.pair .zero).Overtaken c := by
  have hscoped : (Cluster.pair .zero).WellScoped := by decide +kernel
  obtain ⟨c, s, hc, hmoved⟩ := exists_of_readings
    (f := fun c => (c.dimensions.map Dimension.name, decide c.WellScoped))
    (a := (["y", "x"], true)) (r := (Interchange.apply [.pair .zero]).run .empty)
    (by decide +kernel)
  obtain ⟨b, t, hb, hblocked⟩ := exists_of_readings
    (f := fun c => (c.dimensions.map Dimension.name, decide c.WellScoped,
      decide (Blocking.FreshNames (.pair .zero) c)))
    (a := (["x0_blk0", "y0_blk0", "x", "y"], true, true))
    (r := ((⟨1, true⟩ : Blocking).apply [.pair .zero]).run .empty)
    (by decide +kernel)
  simp only [Prod.mk.injEq, decide_eq_true_eq] at hmoved hblocked
  obtain ⟨hinterchange, hblocking⟩ :=
    wellScoped_iff_not_overtaken (List.forall_mem_singleton.mpr hscoped)
  obtain ⟨⟨hiff, -⟩, -⟩ := List.forall₂_cons.mp (hinterchange _ _ _ hc)
  obtain ⟨hiff', -⟩ := List.forall₂_cons.mp (hblocking _ _ _ _ hb)
  exact ⟨hscoped, ⟨c, s, hc, hmoved.1, hiff.mp hmoved.2⟩,
    b, t, hb, hblocked.1, (hiff' Cluster.pair_own hblocked.2.2).mp hblocked.2.1⟩

/-- A loop that starts at the index of the loop around it comes to stand outside of it when it is
promoted, and so does its block when both are blocked. -/
theorem triangular_scope_lost :
    (Cluster.pair (.symbol "x")).WellScoped ∧
    (∃ c s, (Interchange.apply [.pair (.symbol "x")]).run .empty = .ok ([c], s) ∧
      c.dimensions.map Dimension.name = ["y", "x"] ∧ ¬c.WellScoped) ∧
    ∃ c s, ((⟨1, true⟩ : Blocking).apply [.pair (.symbol "x")]).run .empty = .ok ([c], s) ∧
      c.dimensions.map Dimension.name = ["x0_blk0", "y0_blk0", "x", "y"] ∧ ¬c.WellScoped := by
  obtain ⟨c, s, hc, hmoved⟩ := exists_of_readings
    (f := fun c => (c.dimensions.map Dimension.name, decide c.WellScoped))
    (a := (["y", "x"], false)) (r := (Interchange.apply [.pair (.symbol "x")]).run .empty)
    (by decide +kernel)
  obtain ⟨b, t, hb, hblocked⟩ := exists_of_readings
    (f := fun c => (c.dimensions.map Dimension.name, decide c.WellScoped))
    (a := (["x0_blk0", "y0_blk0", "x", "y"], false))
    (r := ((⟨1, true⟩ : Blocking).apply [.pair (.symbol "x")]).run .empty)
    (by decide +kernel)
  simp only [Prod.mk.injEq, decide_eq_false_iff_not] at hmoved hblocked
  exact ⟨by decide +kernel, ⟨c, s, hc, hmoved⟩, b, t, hb, hblocked⟩

end LoopNest
