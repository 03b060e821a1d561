import LoopNest.Proofs.Instances
import LoopNest.Proofs.Lineage
import LoopNest.Proofs.PassMoves
import LoopNest.Proofs.Tags

namespace LoopNest

/-- An input cluster, and the dimensions along which a merge made parallel what came from it. -/
structure Source where
  cluster : Cluster
  granted : List Dimension

structure Tracked where
  cluster : Cluster
  sources : List Source

def Tracked.input (c : Cluster) : Tracked := ⟨c, [⟨c, []⟩]⟩

/-- The parallel dimensions of a merged cluster that one of its sides had no entry for. -/
def grants (side merged : Cluster) : List Dimension :=
  merged.properties.tags.keys.filter fun d =>
    merged.properties.isParallel d && (side.properties.find? d).isNone

def Source.Declares (s : Source) (d : Dimension) : Prop :=
  ∃ e ∈ d.lineage, e ∈ s.cluster.dimensions ∧ s.cluster.properties.isParallel e

instance (s : Source) (d : Dimension) : Decidable (s.Declares d) :=
  inferInstanceAs (Decidable (∃ e ∈ d.lineage, _))

def Source.Granted (s : Source) (d : Dimension) : Prop := ∃ e ∈ d.lineage, e ∈ s.granted

/-- Notes which of the dimensions a merge makes parallel without the source declaring it. -/
def Source.grant (ds : List Dimension) (s : Source) : Source :=
  { s with granted := ds.filter (fun d => ¬s.Declares d) ++ s.granted }

def Tracked.merged (t : Tracked) (c : Cluster) : List Source :=
  t.sources.map (Source.grant (grants t.cluster c))

inductive Tracked.Step : List Tracked → List Tracked → Prop
  | exchange (ts us : List Tracked)
    (h : ∀ t ∈ ts, ∀ u ∈ us, t.cluster.Independent u.cluster) : Step (ts ++ us) (us ++ ts)
  | merge (t u : Tracked) {c : Cluster} (h : Fusion.join? t.cluster u.cluster = .ok (some c)) :
    Step [t, u] [⟨c, t.merged c ++ u.merged c⟩]
  | change (t : Tracked) {cs : List Cluster}
    (h : Block [t.cluster] cs ∨ Promote [t.cluster] cs ∨ Split [t.cluster] cs) :
    Step [t] (cs.map fun c => ⟨c, t.sources⟩)

theorem Tracked.step_of_move {ts : List Tracked} {cs : List Cluster}
    (h : Move splits (ts.map Tracked.cluster) cs) :
    ∃ us, Tracked.Step ts us ∧ us.map Tracked.cluster = cs := by
  have hchange : ∀ {c}, ts.map Tracked.cluster = [c] →
      Block [c] cs ∨ Promote [c] cs ∨ Split [c] cs →
      ∃ us, Tracked.Step ts us ∧ us.map Tracked.cluster = cs := by
    intro c hc hm
    obtain ⟨t, rfl, rfl⟩ := List.map_eq_singleton_iff.mp hc
    exact ⟨_, .change t hm, by simp [Function.comp_def]⟩
  generalize hts : ts.map Tracked.cluster = xs at h
  cases h with
  | exchange h =>
    obtain ⟨hi⟩ := h
    obtain ⟨as, bs, rfl, rfl, rfl⟩ := List.map_eq_append_iff.mp hts
    exact ⟨bs ++ as, .exchange as bs fun t ht u hu => hi _ (List.mem_map_of_mem ht) _
      (List.mem_map_of_mem hu), List.map_append⟩
  | merge h =>
    obtain ⟨hj⟩ := h
    obtain ⟨t, us, rfl, rfl, hus⟩ := List.map_eq_cons_iff.mp hts
    obtain ⟨u, rfl, rfl⟩ := List.map_eq_singleton_iff.mp hus
    exact ⟨_, .merge t u hj, rfl⟩
  | block h =>
    cases h with
    | intro ht h => exact hchange hts (.inl (.intro ht h))
  | promote h =>
    cases h with
    | intro hle h => exact hchange hts (.inr (.inl (.intro hle h)))
  | split _ h =>
    cases h with
    | intro h => exact hchange hts (.inr (.inr (.intro h)))

theorem Tracked.rewrites_of_moves {ts : List Tracked} {cs : List Cluster}
    (h : Rewrites (Move splits) (ts.map Tracked.cluster) cs) :
    ∃ us, Rewrites Tracked.Step ts us ∧ us.map Tracked.cluster = cs := by
  refine h.keeps (P := fun cs => ∃ us, Rewrites Tracked.Step ts us ∧ us.map Tracked.cluster = cs)
    ⟨ts, Rewrites.refl _, rfl⟩ ?_
  intro before after as bs hm htracked
  obtain ⟨us, hus, hmap⟩ := htracked
  obtain ⟨ys, zs, rfl, hys, rfl⟩ := List.map_eq_append_iff.mp hmap
  obtain ⟨ws, xs, rfl, rfl, rfl⟩ := List.map_eq_append_iff.mp hys
  obtain ⟨xs', hstep, rfl⟩ := Tracked.step_of_move hm
  exact ⟨ws ++ xs' ++ zs, hus.trans (((Rewrites.of hstep).append_left ws).append_right zs),
    by simp⟩

/-- Every parallel dimension of what became of a source is declared by it or granted to it, and what
was granted it did not declare. -/
structure Source.Accounts (s : Source) (c : Cluster) : Prop where
  parallel : ∀ d, c.properties.isParallel d → s.Declares d ∨ s.Granted d
  undeclared : ∀ e ∈ s.granted, ¬s.Declares e

def Tracked.Accounted (t : Tracked) : Prop := ∀ s ∈ t.sources, s.Accounts t.cluster

theorem Source.Accounts.of_lineage {s : Source} (h : s.Accounts c) (hp : c.properties.isParallel e)
    (he : e ∈ d.lineage) : s.Declares d ∨ s.Granted d := by
  rcases h.parallel e hp with ⟨f, hf, h⟩ | ⟨f, hf, h⟩
  · exact .inl ⟨f, Dimension.lineage_trans he hf, h⟩
  · exact .inr ⟨f, Dimension.lineage_trans he hf, h⟩

/-- A source over basic dimensions declares a dimension or had it granted, not both. -/
theorem Source.Accounts.not_granted {s : Source} (h : s.Accounts c) (hb : s.cluster.IsBasic)
    (hd : s.Declares d) : ¬s.Granted d := by
  intro hgranted
  obtain ⟨e, he, hg⟩ := hgranted
  obtain ⟨f, hf, hm, hp⟩ := hd
  obtain ⟨name, rfl⟩ := hb f hm
  have hroot : Dimension.basic name = e.root :=
    (Dimension.root_of_mem_lineage hf).trans (Dimension.root_of_mem_lineage he).symm
  exact h.undeclared e hg ⟨_, hroot ▸ e.root_mem_lineage, hm, hp⟩

/-- A change that makes parallel only what comes from a parallel dimension stays accounted for. -/
theorem Tracked.Accounted.change {t : Tracked} (h : t.Accounted)
    (hc : ∀ d, c.properties.isParallel d → ∃ e ∈ d.lineage, t.cluster.properties.isParallel e) :
    Tracked.Accounted ⟨c, t.sources⟩ := by
  intro s hs
  refine ⟨fun d hd => ?_, (h s hs).undeclared⟩
  obtain ⟨e, he, hp⟩ := hc d hd
  exact (h s hs).of_lineage hp he

/-- Joining makes parallel only what is parallel on each side that has an entry for it. -/
theorem Fusion.isParallel_of_join? (h : Fusion.join? a b = .ok (some c))
    (hp : c.properties.isParallel d) :
    ((a.properties.find? d).isSome → a.properties.isParallel d) ∧
      ((b.properties.find? d).isSome → b.properties.isParallel d) := by
  obtain ⟨deps, -, -, hprops⟩ := Fusion.join?_properties h
  rw [hprops] at hp
  exact Properties.isParallel_merge (Properties.isParallel_narrow hp).1

theorem Tracked.merged_accounts {t : Tracked} (h : t.Accounted)
    (hside : ∀ d, c.properties.isParallel d → (t.cluster.properties.find? d).isSome →
      t.cluster.properties.isParallel d) : ∀ s ∈ t.merged c, s.Accounts c := by
  intro s' hs'
  obtain ⟨s, hs, rfl⟩ := List.mem_map.mp hs'
  constructor
  · intro d hp
    by_cases hd : s.Declares d
    · exact .inl hd
    cases hfind : t.cluster.properties.find? d with
    | some tags =>
      rcases (h s hs).parallel d (hside d hp (by rw [hfind]; rfl)) with hdecl | ⟨e, he, hg⟩
      · exact .inl hdecl
      · exact .inr ⟨e, he, List.mem_append_right _ hg⟩
    | none =>
      have hg : d ∈ grants t.cluster c := List.mem_filter.mpr
        ⟨SortedMap.mem_keys_iff.mpr (Properties.isSome_of_isParallel hp), by simp [hp, hfind]⟩
      exact .inr ⟨d, d.self_mem_lineage,
        List.mem_append_left _ (List.mem_filter.mpr ⟨hg, decide_eq_true hd⟩)⟩
  · intro e he
    rcases List.mem_append.mp he with he | he
    · exact of_decide_eq_true (List.mem_filter.mp he).2
    · exact (h s hs).undeclared e he

namespace Blocking

theorem mem_lineage_of_nested {name : Nat → String} {blocks : List Dimension}
    (h : nested name n level outer = .ok blocks) (hd : d ∈ outer.lineage) :
    ∀ block ∈ blocks, d ∈ block.lineage := by
  induction n generalizing level outer blocks with
  | zero =>
    cases h
    simp
  | succ n ih =>
    obtain ⟨block, hb, h⟩ := Returns.of_bind (returns_ok h)
    obtain ⟨rest, hr, h⟩ := Returns.of_bind h
    have hblock : d ∈ block.lineage :=
      Dimension.mem_lineage_of_parent? (Dimension.parent?_of_blockWithin hb) hd
    rw [Returns.of_pure h]
    exact List.forall_mem_cons.mpr ⟨hblock, ih hr hblock⟩

/-- All dimensions that a blocked one gives way to come from it. -/
theorem mem_lineage_of_blocks {b : Blocking} (hb : b.blocksOver d n = .ok blocks)
    (hl : pointsWithin d blocks = .ok last) : ∀ e ∈ blocks ++ [last], d ∈ e.lineage := by
  have hblocks : ∀ e ∈ blocks, d ∈ e.lineage := by
    obtain ⟨first, hf, hb⟩ := Returns.of_bind (returns_ok hb)
    obtain ⟨rest, hr, hb⟩ := Returns.of_bind hb
    have hfirst : d ∈ first.lineage :=
      Dimension.mem_lineage_of_parent? (Dimension.parent?_of_blockOver hf) d.self_mem_lineage
    rw [Returns.of_pure hb]
    exact List.forall_mem_cons.mpr ⟨hfirst, mem_lineage_of_nested hr hfirst⟩
  have hinner : d ∈ (blocks.getLast?.getD d).lineage := by
    cases hg : blocks.getLast? with
    | none => exact d.self_mem_lineage
    | some e => exact hblocks e (List.mem_of_getLast? hg)
  intro e he
  rcases List.mem_append.mp he with he | he
  · exact hblocks e he
  · obtain rfl := List.mem_singleton.mp he
    exact Dimension.mem_lineage_of_parent? (Dimension.parent?_of_blockWithin hl) hinner

theorem isParallel_inheritTags {p : Properties} (h : (inheritTags p d new).isParallel e) :
    p.isParallel e ∨ e ∈ new ∧ p.isParallel d := by
  rcases Properties.isParallel_foldl_tag h with h | ⟨hm, h⟩
  · exact .inl (Properties.isParallel_of_drop h)
  · obtain ⟨t, ht, hp⟩ := List.any_eq_true.mp h
    exact .inr ⟨hm, List.any_eq_true.mpr ⟨t, (List.mem_filter.mp ht).1, hp⟩⟩

end Blocking

theorem Block.isParallel (h : Block [c] [c']) (hp : c'.properties.isParallel d) :
    ∃ e ∈ d.lineage, c.properties.isParallel e := by
  obtain ⟨-, hb⟩ := h
  obtain ⟨n, blocks, last, i, ispace, hblocks, hlast, -, -, rfl⟩ := Blocking.block_cases hb
  rcases Blocking.isParallel_inheritTags hp with hp | ⟨hm, hp⟩
  · exact ⟨d, d.self_mem_lineage, hp⟩
  · exact ⟨_, Blocking.mem_lineage_of_blocks hblocks hlast d hm, hp⟩

theorem Promote.isParallel (h : Promote [c] [c']) (hp : c'.properties.isParallel d) :
    c.properties.isParallel d := by
  obtain ⟨-, hm⟩ := h
  obtain ⟨chains, group, -, rfl⟩ := Interchange.moveLoop_cases hm
  exact hp

namespace Remainder

theorem isParallel_inheritTags {p : Properties} (h : (inheritTags p d parts).isParallel e) :
    p.isParallel e ∨ e.parent? = some d ∧ p.isParallel d := by
  rcases Properties.isParallel_foldl_tag h with h | ⟨hm, h⟩
  · exact .inl (Properties.isParallel_of_drop h)
  · obtain ⟨t, ht, hp⟩ := List.any_eq_true.mp h
    obtain ⟨part, -, hm⟩ := List.mem_flatMap.mp hm
    exact .inr ⟨of_decide_eq_true (List.mem_filter.mp hm).2,
      List.any_eq_true.mpr ⟨t, (List.mem_filter.mp ht).1, hp⟩⟩

end Remainder

theorem Split.isParallel (h : Split [c] cs) (hc : c' ∈ cs) (hp : c'.properties.isParallel d) :
    ∃ e ∈ d.lineage, c.properties.isParallel e := by
  obtain ⟨h⟩ := h
  rcases Remainder.splitCluster_cases h with rfl | ⟨d', parts, -, -, -, hclusters⟩
  · obtain rfl := List.mem_singleton.mp hc
    exact ⟨d, d.self_mem_lineage, hp⟩
  · rw [(Cluster.clusterize_members hclusters c' hc).2] at hp
    rcases Remainder.isParallel_inheritTags (Properties.isParallel_of_retain hp) with
      hp | ⟨hparent, hp⟩
    · exact ⟨d, d.self_mem_lineage, hp⟩
    · exact ⟨_, Dimension.mem_lineage_of_parent? hparent (Dimension.self_mem_lineage _), hp⟩

theorem Tracked.Step.accounted (h : Tracked.Step ts us) (hts : ∀ t ∈ ts, t.Accounted) :
    ∀ u ∈ us, u.Accounted := by
  cases h with
  | exchange ts us _ =>
    intro t ht
    exact hts t (List.mem_append.mpr (List.mem_append.mp ht).symm)
  | merge t u hj =>
    refine List.forall_mem_singleton.mpr ?_
    intro s hs
    rcases List.mem_append.mp hs with hs | hs
    · exact Tracked.merged_accounts (hts t (by simp))
        (fun d hp => (Fusion.isParallel_of_join? hj hp).1) s hs
    · exact Tracked.merged_accounts (hts u (by simp))
        (fun d hp => (Fusion.isParallel_of_join? hj hp).2) s hs
  | change t hc =>
    intro u hu
    obtain ⟨c, hcs, rfl⟩ := List.mem_map.mp hu
    refine (hts t (by simp)).change fun d hp => ?_
    rcases hc with hb | hm | hs
    · cases hb with
      | intro ht hb =>
        obtain rfl := List.mem_singleton.mp hcs
        exact Block.isParallel (.intro ht hb) hp
    · cases hm with
      | intro hle hm =>
        obtain rfl := List.mem_singleton.mp hcs
        exact ⟨d, d.self_mem_lineage, Promote.isParallel (.intro hle hm) hp⟩
    · exact hs.isParallel hcs hp

/-- A dimension that is parallel in the result of a run comes from a parallel one of every input
cluster that went into it, unless a merge granted the tag. For inputs over basic dimensions it is
one or the other. -/
theorem parallel_tags_declared {config : Config} {clusters : List Cluster} {out : Outcome}
    (h : Pipeline.run config clusters = .ok out)
    (hown : ∀ c ∈ clusters, ∀ d, (c.properties.find? d).isSome → d ∈ c.dimensions) :
    ∃ traced, Rewrites Tracked.Step (clusters.map Tracked.input) traced ∧
      traced.map Tracked.cluster = out.clusters ∧
      ∀ t ∈ traced, ∀ s ∈ t.sources, ∀ d, t.cluster.properties.isParallel d →
        (¬s.Granted d → s.Declares d) ∧ (s.cluster.IsBasic → s.Declares d → ¬s.Granted d) := by
  have hmoves := Pipeline.run_moves h
  have hstart : (clusters.map Tracked.input).map Tracked.cluster = clusters := by
    simp [Function.comp_def, Tracked.input]
  rw [← hstart] at hmoves
  obtain ⟨traced, htraced, hmap⟩ := Tracked.rewrites_of_moves hmoves
  have hall : ∀ t ∈ traced, t.Accounted := by
    refine htraced.keeps (P := fun ts => ∀ t ∈ ts, t.Accounted) ?_ ?_
    · intro t ht
      obtain ⟨c, hc, rfl⟩ := List.mem_map.mp ht
      refine List.forall_mem_singleton.mpr ⟨fun d hp => ?_, by simp⟩
      exact .inl ⟨d, d.self_mem_lineage, hown c hc d (Properties.isSome_of_isParallel hp), hp⟩
    · intro before after as bs hstep hall
      simp only [List.forall_mem_append] at hall ⊢
      exact ⟨⟨hall.1.1, hstep.accounted hall.1.2⟩, hall.2⟩
  refine ⟨traced, htraced, hmap, fun t ht s hs d hp => ?_⟩
  have hacc := hall t ht s hs
  exact ⟨fun hg => (hacc.parallel d hp).resolve_right hg, fun hb => hacc.not_granted hb⟩

theorem Cluster.tagged_own {x : String} {lhs : Access} {rhs : Expr} {tags : List Property} :
    ∀ d, (((single x lhs rhs).tagged (.basic x) tags).properties.find? d).isSome →
      d ∈ ((single x lhs rhs).tagged (.basic x) tags).dimensions := by
  intro d hd
  have hd : ((Properties.empty.tag (.basic x) tags).find? d).isSome := hd
  rw [Properties.find?_tag] at hd
  split at hd
  · rename_i he
    rw [he]
    exact List.mem_singleton.mpr rfl
  · cases hd

/-- Two parallel loops are fused and blocked, and the block and the loop in it stay parallel. -/
theorem parallel_tags_declared_blocked :
    ∃ out, Pipeline.run { Config.forLocality with mode := .custom ["fuse", "blocking"] }
        (Cluster.writeThenRead [.parallel, .tilable]) = .ok out ∧
      out.clusters.map (fun c => c.dimensions.map fun d => (d.name, c.properties.isParallel d)) =
        [[("x0_blk0", true), ("x", true)]] ∧
      ∃ traced, Rewrites Tracked.Step
          ((Cluster.writeThenRead [.parallel, .tilable]).map Tracked.input) traced ∧
        traced.map Tracked.cluster = out.clusters ∧
        ∀ t ∈ traced, ∀ s ∈ t.sources, ∀ d, t.cluster.properties.isParallel d →
          (¬s.Granted d → s.Declares d) ∧ (s.cluster.IsBasic → s.Declares d → ¬s.Granted d) := by
  obtain ⟨out, hrun, htags⟩ : ∃ out,
      Pipeline.run { Config.forLocality with mode := .custom ["fuse", "blocking"] }
        (Cluster.writeThenRead [.parallel, .tilable]) = .ok out ∧
      out.clusters.map (fun c => c.dimensions.map fun d => (d.name, c.properties.isParallel d)) =
        [[("x0_blk0", true), ("x", true)]] := ⟨_, rfl, rfl⟩
  refine ⟨out, hrun, htags, parallel_tags_declared hrun ?_⟩
  simp only [Cluster.writeThenRead, List.forall_mem_cons, List.not_mem_nil, false_imp_iff,
    implies_true, and_true]
  exact ⟨Cluster.tagged_own, Cluster.tagged_own⟩

/-- Fused with a parallel loop, a loop without any tags turns parallel. -/
theorem untagged_loop_promoted :
    ∃ out c, Pipeline.run { Config.standard with mode := .custom ["fuse"] }
      [.single "x" (.around "x" "u" 0) (.int 1),
        (Cluster.single "x" (.around "x" "w" 0) (.int 1)).tagged (.basic "x") [.parallel]] =
          .ok out ∧
      out.clusters = [c] ∧
      (∀ e ∈ (Cluster.single "x" (.around "x" "u" 0) (.int 1)).equations, e ∈ c.equations) ∧
      c.properties.isParallel (.basic "x") ∧
      ∀ d ∈ (Dimension.basic "x").lineage,
        ¬(Cluster.single "x" (.around "x" "u" 0) (.int 1)).properties.isParallel d :=
  ⟨_, _, rfl, rfl, by decide, rfl, by decide⟩

end LoopNest
