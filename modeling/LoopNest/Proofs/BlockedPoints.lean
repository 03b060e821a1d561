import LoopNest.Proofs.BlockNames
import LoopNest.Proofs.BlocksInTurn
import LoopNest.Proofs.LoopRuns
import LoopNest.Proofs.TreeLeaves

namespace LoopNest

namespace Blocking

theorem names_nodup (d : Dimension) (n levels : Nat) :
    ((List.range levels).map (blockName d n) ++ [d.name]).Nodup := by
  refine List.nodup_append.mpr ⟨List.nodup_range.map fun _ _ => blockName_inj,
    List.nodup_singleton _, fun s hs t ht he => ?_⟩
  obtain ⟨level, -, rfl⟩ := List.mem_map.mp hs
  rw [List.mem_singleton.mp ht] at he
  exact blockName_ne d n level he

theorem sizeName_notMem (d : Dimension) (n levels level : Nat) :
    Dimension.sizeName (blockName d n level) ∉
      (List.range levels).map (blockName d n) ++ [d.name] := by
  rw [List.mem_append, List.mem_map, List.mem_singleton, not_or]
  refine ⟨?_, sizeName_ne d n level⟩
  rintro ⟨level', -, he⟩
  exact sizeName_blockName_ne d n level level' he.symm

end Blocking

/-- A block within another one runs from the index of that one through one of its steps. -/
theorem Dimension.InStepOf.extent {d outer : Dimension} (h : d.InStepOf outer) :
    ∃ last, (Interval.closed d .zero .zero).extent = .ok (some (outer.symbol, last)) ∧
      ∀ v : Valuation, last.denote v = v outer.name + outer.step.denote v - 1 := by
  obtain ⟨name, size, h⟩ := h
  obtain ⟨next, hnext, h⟩ := Returns.of_bind (returns_ok h)
  obtain ⟨last, hlast, h⟩ := Returns.of_bind h
  rw [Returns.of_pure h]
  refine ⟨last, ?_, fun v => ?_⟩
  · simp only [Interval.extent, Dimension.min, Dimension.max, bound, LinExpr.add_zero]
    rfl
  · rw [LinExpr.subInt_denote hlast, LinExpr.add_denote hnext, Dimension.symbol,
      LinExpr.denote_symbol]
    rfl

theorem LoopHead.tiles_of_heads {h outer : LoopHead} {p q : Dimension} {dir : Direction}
    (hq : q.InStepOf p) (hh : h.Heads ⟨.closed q .zero .zero, dir⟩) (hdim : outer.dim = p)
    (hstep : outer.step = p.step) (hdir : outer.direction = dir) : h.Tiles outer := by
  obtain ⟨last, hextent, hlast⟩ := hq.extent
  have hbounds := Except.ok.inj (hh.extent.symm.trans hextent)
  simp only [Option.some.injEq, Prod.mk.injEq] at hbounds
  refine ⟨fun w => ?_, fun w => ?_, hh.direction.trans hdir.symm⟩
  · rw [hbounds.1, Dimension.symbol, LinExpr.denote_symbol, hdim]
  · rw [hbounds.2, hlast, hdim, hstep]

/-- The heads of blocks within one another are tiles of each other. -/
theorem LoopHead.isChain_tiles {outer : LoopHead} {p : Dimension} {l : List Dimension}
    {heads : List LoopHead} {dir : Direction} (hchain : (p :: l).IsChain fun p q => q.InStepOf p)
    (hdim : outer.dim = p) (hstep : outer.step = p.step) (hdir : outer.direction = dir)
    (hheads : List.Forall₂ (fun h q => LoopHead.Heads h ⟨.closed q .zero .zero, dir⟩) heads l) :
    (outer :: heads).IsChain fun p q => q.Tiles p := by
  induction hheads generalizing outer p with
  | nil => exact .singleton _
  | cons hh _ ih =>
    obtain ⟨hq, hchain⟩ := List.isChain_cons_cons.mp hchain
    exact .cons_cons (tiles_of_heads hq hh hdim hstep hdir)
      (ih hchain hh.dim hh.step hh.direction)

namespace Blocking

def blockSizes (nest : List IterationInterval) (v : Valuation) : List Int :=
  nest.dropLast.map (·.dim.step.denote v)

/-- The range goes from `lo` to `hi`, whatever the indices of the nest, and every block divides what
it stands in. -/
structure DividesEvenly (nest : List IterationInterval) (lower upper : LinExpr) (v : Valuation)
    (lo hi : Int) : Prop where
  span : ∀ w, AgreeOff (nest.map (·.dim.name)) v w → lower.denote w = lo ∧ upper.denote w = hi
  sizes : ((hi - lo + 1) :: blockSizes nest v).IsChain fun n size => 0 < size ∧ size ∣ n

theorem DividesEvenly.size_pos {nest : List IterationInterval} {lower upper : LinExpr}
    {v : Valuation} {lo hi : Int} (h : DividesEvenly nest lower upper v lo hi) :
    ∀ size ∈ blockSizes nest v, 0 < size := by
  intro size hsize
  obtain ⟨n, ⟨hpos, -⟩, -⟩ := exists_precedes_of_isChain h.sizes size hsize
  exact hpos

/-- The loops of the nest have heads. If they run by these and the sizes divide, the index of the
blocked loop takes the given values one after another. -/
def Visits (l : IterationInterval) (nest : List IterationInterval)
    (points : Valuation → Int → Int → List Int) : Prop :=
  ∀ lower upper, l.interval.extent = .ok (some (lower, upper)) →
    (∃ heads, List.Forall₂ LoopHead.Heads heads nest) ∧
      ∀ heads, List.Forall₂ LoopHead.Heads heads nest →
        ∀ v lo hi, DividesEvenly nest lower upper v lo hi →
          ∃ runs, Runs heads v runs ∧ runs.map (· l.dim.name) = points v lo hi

theorem Visits.congr {l : IterationInterval} {nest : List IterationInterval}
    {points points' : Valuation → Int → Int → List Int} (h : Visits l nest points)
    (hpoints : ∀ v lo hi, points v lo hi = points' v lo hi) : Visits l nest points' := by
  obtain rfl : points = points' := funext fun v => funext fun lo => funext (hpoints v lo)
  exact h

def blockedPoints (dir : Direction) (nest : List IterationInterval) (v : Valuation) (lo hi : Int) :
    List Int :=
  dir.walk (dir.near lo hi + ((blockSizes nest v).map dir.lead).sum) (hi - lo + 1).toNat

section
variable {b : Blocking} {l : IterationInterval} {c : Cluster} {n : Nat} {first last : Dimension}
  {rest : List Dimension}

theorem Hierarchy.exists_heads (h : b.Hierarchy l.dim n first rest last)
    {range : LinExpr × LinExpr} (he : l.interval.extent = .ok (some range)) :
    ∃ heads, List.Forall₂ LoopHead.Heads heads (nestOver l (first :: (rest ++ [last]))) := by
  have hextents : ∀ m ∈ nestOver l (first :: (rest ++ [last])), ∃ head, LoopHead.Heads head m := by
    intro m hm
    obtain ⟨i, hi, rfl⟩ := List.mem_map.mp hm
    have hextent : ∃ range, i.extent = .ok (some range) := by
      rcases List.mem_cons.mp hi with rfl | hi
      · exact ⟨range, (Interval.extent_switch h.outermost).trans he⟩
      · obtain ⟨q, hq, rfl⟩ := List.mem_map.mp hi
        obtain ⟨p, hwithin, -⟩ := exists_precedes_of_isChain h.chain q hq
        obtain ⟨last, hlast, -⟩ := hwithin.extent
        rw [Interval.zero, Interval.switch_dim]
        exact ⟨_, hlast⟩
    obtain ⟨range, hrange⟩ := hextent
    exact ⟨⟨i.dim, range.1, range.2, i.dim.step, l.direction, .empty⟩, rfl, rfl, rfl, hrange⟩
  exact exists_forall₂ hextents

/-- Steps do not depend on the indices of the nest. -/
theorem Hierarchy.step_denote (h : b.Hierarchy l.dim n first rest last) {v w : Valuation}
    (hw : AgreeOff ((List.range b.levels).map (blockName l.dim n) ++ [l.dim.name]) v w) :
    ∀ d ∈ first :: (rest ++ [last]), d.step.denote w = d.step.denote v := by
  intro d hd
  rw [← List.cons_append, List.mem_append, List.mem_singleton] at hd
  rcases hd with hd | rfl
  · have hname := List.mem_map_of_mem (f := Dimension.name) hd
    rw [h.names, List.mem_map] at hname
    obtain ⟨level, -, hname⟩ := hname
    rw [h.steps d hd, LinExpr.denote_symbol, LinExpr.denote_symbol, ← hname]
    exact hw _ (sizeName_notMem l.dim n b.levels level)
  · rw [h.unit, LinExpr.int_denote, LinExpr.int_denote]

theorem Hierarchy.blockSizes_nestOver (h : b.Hierarchy l.dim n first rest last) (v : Valuation) :
    blockSizes (nestOver l (first :: (rest ++ [last]))) v ++ [1] =
      (nestOver l (first :: (rest ++ [last]))).map (·.dim.step.denote v) := by
  have hunit : last.step.denote v = 1 := by
    rw [h.unit, LinExpr.int_denote]
    rfl
  have hsteps := calc
    (nestOver l (first :: (rest ++ [last]))).map (·.dim.step.denote v) =
        ((nestOver l (first :: (rest ++ [last]))).map (·.dim)).map (·.step.denote v) := by
      rw [List.map_map]
      rfl
    _ = (first :: rest).map (·.step.denote v) ++ [1] := by
      rw [nestOver_map_dim, ← List.cons_append, List.map_append, List.map_singleton, hunit]
  rw [blockSizes, List.map_dropLast, hsteps, List.dropLast_concat]

/-- The nest visits as many points as the blocked loop, one after another. -/
theorem Replaced.visits (h : b.Replaced l c n first rest last) (hlevels : b.levels ≠ 0) :
    Visits l (nestOver l (first :: (rest ++ [last])))
      (blockedPoints l.direction (nestOver l (first :: (rest ++ [last])))) := by
  refine fun lower upper he => ⟨h.hierarchy.exists_heads he, fun heads hheads v lo hi hv => ?_⟩
  have hnest := h.map_name hlevels
  have hnames := (LoopHead.Heads.map_name hheads).trans hnest
  have hnodup := names_nodup l.dim n b.levels
  have hlast : (heads.map (·.dim.name)).getLast? = some l.dim.name := by
    rw [hnames]
    exact List.getLast?_concat
  have hsteps : List.Forall₂ (fun head => head.Steps (heads.map (·.dim.name)) v) heads
      (blockSizes (nestOver l (first :: (rest ++ [last]))) v ++ [1]) := by
    have hfixed : ∀ m ∈ nestOver l (first :: (rest ++ [last])), ∀ w : Valuation,
        AgreeOff (heads.map (·.dim.name)) v w → m.dim.step.denote w = m.dim.step.denote v := by
      intro m hm w hw
      rw [hnames] at hw
      refine h.hierarchy.step_denote hw m.dim ?_
      rw [← nestOver_map_dim l (first :: (rest ++ [last]))]
      exact List.mem_map_of_mem hm
    rw [h.hierarchy.blockSizes_nestOver, List.forall₂_map_right_iff]
    refine ((List.forall₂_and_left _ _).mpr ⟨hfixed, hheads.flip⟩).flip.imp fun head m hm w hw => ?_
    rw [hm.2.step, hm.1 w hw]
  rw [← hnames] at hnest hnodup
  have hspan := hv.span
  rw [hnest] at hspan
  cases hheads with
  | cons hhead hinner =>
    rename_i outer inner
    have hbounds := Except.ok.inj ((hhead.extent.symm.trans
      (Interval.extent_switch h.hierarchy.outermost)).trans he)
    simp only [Option.some.injEq, Prod.mk.injEq] at hbounds
    have hinner' : List.Forall₂ (fun head q =>
        LoopHead.Heads head ⟨.closed q .zero .zero, l.direction⟩) inner (rest ++ [last]) := by
      rw [List.forall₂_map_right_iff, List.forall₂_map_right_iff] at hinner
      refine hinner.imp fun head q hq => ?_
      rwa [Interval.zero, Interval.switch_dim] at hq
    have hchain := LoopHead.isChain_tiles h.hierarchy.chain
      (hhead.dim.trans (Interval.switch_dim _ _))
      (hhead.step.trans (congrArg Dimension.step (Interval.switch_dim _ _))) hhead.direction hinner'
    have hspan' : outer.Spans ((outer :: inner).map (·.dim.name)) v lo hi := by
      intro w hw
      rw [hbounds.1, hbounds.2]
      exact hspan w hw
    have hdir : outer.direction = l.direction := hhead.direction
    rw [← hdir]
    exact runs_tiles hchain hnodup hlast hspan' hsteps hv.sizes

end

/-- Blocking has replaced the loop, which is not over a block itself. Tags of blocks over it, if
there are any, are on loops of the nest: a block that is tagged beforehand is blocked in turn. -/
structure Taken (c c' : Cluster) (l : IterationInterval) : Prop where
  loop : l ∈ c.loops
  unblocked : l.dim.isBlock = false
  gone : l.dim ∉ c'.dimensions
  own : ∀ d, d.isBlock → l.dim ∈ d.lineage → c.properties.isTilable d → d ∈ c.dimensions

/-- A loop that is gone was blocked, and its nest stays, since no tag waits for a block of it. -/
theorem apply_nests {b : Blocking} {clusters out : List Cluster}
    (h : returns (b.apply clusters) out) :
    List.Forall₂ (fun c c' => ∀ l, Taken c c' l →
      ∃ nest, b.NestOf l c' nest ∧ Visits l nest (blockedPoints l.direction nest))
      clusters out := by
  by_cases hlevels : b.levels = 0
  · unfold apply at h
    rw [if_pos hlevels] at h
    rw [Returns.of_pure h]
    exact List.forall₂_same.mpr fun c _ l hl =>
      absurd (Cluster.dim_mem_dimensions hl.loop) hl.gone
  refine (apply_inTurn h).imp fun c c' ⟨taken, hturn⟩ l hl => ?_
  obtain ⟨i, hi, rfl⟩ := List.mem_map.mp hl.loop
  have hin : i.dim ∈ taken := by
    by_contra hin
    exact hl.gone (Cluster.mem_dimensions_of_mem (hturn.keeps hi hin).1)
  obtain ⟨before, after, c₁, c₂, rfl, hbefore, hc₁, ⟨s, s', hblock⟩, hc₂⟩ := hturn.split hin
  obtain ⟨hi₁, hdir⟩ := hc₁.keeps hi hbefore
  obtain ⟨j, others, first, rest, last, hdim, hnest, -, hx⟩ := block_expansion hblock
  -- of several intervals over the dimension all but the first would stay
  have hij : i = j := by
    refine (List.mem_cons.mp (hx.perm.mem_iff.mp hi₁)).resolve_right fun hother => hl.gone ?_
    refine Cluster.mem_dimensions_of_mem (hc₂.keeps ((hx.mem i).mpr (.inl hother)) ?_).1
    exact fun hafter => (hx.tilable (hc₂.isTilable _ hafter)).2 hdim.symm
  subst hij
  -- the new blocks are none of the loops that the tags of blocks over `i.dim` are on
  have hreplaced := (hx.replaced hnest).inTurn hc₂ fun e he hafter => by
    obtain ⟨hblock, hlineage⟩ := isBlock_of_linked hnest.linked e he
    exact hx.not_tilable (hc₁.mem_of_tilable (hl.own e hblock hlineage)) he
      (hc₂.isTilable e hafter)
  rw [hdir] at hreplaced
  exact ⟨_, hreplaced.nestOf hlevels, hreplaced.visits hlevels⟩

end Blocking

def Cluster.tilableLoop : Cluster :=
  (single "x" (.around "x" "u" 0) (.int 1)).tagged (.basic "x") [.tilable]

def tiledRange (last : Int) : Valuation := fun s =>
  if s = "x_M" then last else if s = "x0_blk0_size" then 4 else if s = "x0_blk1_size" then 2 else 0

theorem Cluster.eq_of_tilableLoop {d : Dimension} (hd : tilableLoop.properties.isTilable d) :
    d = .basic "x" := by
  have hd : (Properties.empty.tag (.basic "x") [.tilable]).isTilable d := hd
  rw [Properties.isTilable_iff, Properties.of_tag] at hd
  split at hd
  · assumption
  · cases hd

namespace Blocking

theorem taken_of_gone {c c' : Cluster} {l : IterationInterval} (hl : l ∈ c.loops)
    (hdim : l.dim = .basic "x") (htags : c.properties = Cluster.tilableLoop.properties)
    (hgone : .basic "x" ∉ c'.dimensions) : Taken c c' l where
  loop := hl
  unblocked := by rw [hdim]; rfl
  gone := by rwa [hdim]
  own := by
    intro d _ _ hd
    rw [htags] at hd
    rw [Cluster.eq_of_tilableLoop hd, ← hdim]
    exact Cluster.dim_mem_dimensions hl

theorem blockSizes_eq (nest : List IterationInterval) (v : Valuation) :
    blockSizes nest v = (nest.map (·.dim.step)).dropLast.map (·.denote v) := by
  rw [blockSizes, ← List.map_dropLast, List.map_map]
  rfl

/-- The whole nest, if it is as long as the nest of a blocked loop, is that nest. -/
theorem NestOf.eq_loops {b : Blocking} {l : IterationInterval} {c : Cluster}
    {nest : List IterationInterval} (h : b.NestOf l c nest) (hlen : c.loops.length = b.levels + 1) :
    nest = c.loops := by
  obtain ⟨n, hnamed⟩ := h.named
  have hnest := congrArg List.length hnamed
  simp only [List.length_map, List.length_append, List.length_range, List.length_singleton] at hnest
  exact h.sublist.eq_of_length (hnest.trans hlen.symm)

def nestReading (c : Cluster) : Bool × List String × List LinExpr :=
  (decide (.basic "x" ∈ c.dimensions), c.loops.map (·.dim.name), c.loops.map (·.dim.step))

/-- The nest of a blocked loop, as it is read off. -/
theorem exists_nest (b : Blocking) (c₀ : Cluster) (l : IterationInterval) (names : List String)
    (steps : List LinExpr) (hl : l ∈ c₀.loops) (hdim : l.dim = .basic "x")
    (htags : c₀.properties = Cluster.tilableLoop.properties) (hlen : names.length = b.levels + 1)
    (hread : readings nestReading ((b.apply [c₀]).run .empty) = some [(false, names, steps)]) :
    ∃ c s, (b.apply [c₀]).run .empty = .ok ([c], s) ∧ Taken c₀ c l ∧
      (∀ nest, b.NestOf l c nest → nest = c.loops) ∧ c.loops.map (·.dim.name) = names ∧
        c.loops.map (·.dim.step) = steps := by
  obtain ⟨c, s, hrun, hc⟩ := exists_of_readings hread
  simp only [nestReading, Prod.mk.injEq, decide_eq_false_iff_not] at hc
  obtain ⟨hgone, hnames, hsteps⟩ := hc
  refine ⟨c, s, hrun, taken_of_gone hl hdim htags hgone, fun nest hnest => ?_, hnames, hsteps⟩
  rw [← hnames, List.length_map] at hlen
  exact hnest.eq_loops hlen

theorem dividesEvenly_tiledRange {nest : List IterationInterval} {names : List String} {last : Int}
    (hnames : nest.map (·.dim.name) = names) (hm : "x_m" ∉ names) (hM : "x_M" ∉ names)
    (hsizes : ((last + 1) :: blockSizes nest (tiledRange last)).IsChain
      fun n size => 0 < size ∧ size ∣ n) :
    DividesEvenly nest (.symbol "x_m") (.symbol "x_M") (tiledRange last) 0 last where
  span w hw := by
    rw [hnames] at hw
    rw [LinExpr.denote_symbol, LinExpr.denote_symbol, hw _ hm, hw _ hM]
    exact ⟨rfl, rfl⟩
  sizes := by rwa [Int.sub_zero]

end Blocking

/-- A backward loop that has been blocked visits as many points as before, from the top down, but
every one by the sizes of the blocks, each less one, too far up. So it visits the points it visited
before exactly if there are none or all sizes are one. -/
theorem blocked_backward_points {b : Blocking} {clusters out : List Cluster} {s s' : Blocking.State}
    (h : (b.apply clusters).run s = .ok (out, s')) :
    List.Forall₂ (fun c c' => ∀ l, Blocking.Taken c c' l → l.direction = .backward →
      ∀ lower upper, l.interval.extent = .ok (some (lower, upper)) →
        ∃ nest, b.NestOf l c' nest ∧ (∃ heads, List.Forall₂ LoopHead.Heads heads nest) ∧
          ∀ heads, List.Forall₂ LoopHead.Heads heads nest →
            ∀ v lo hi, Blocking.DividesEvenly nest lower upper v lo hi →
              ∃ points, Runs heads v points ∧
                points.map (· l.dim.name) = ((Int.range lo (hi + 1)).map
                  (· + ((Blocking.blockSizes nest v).map (· - 1)).sum)).reverse ∧
                (points.map (· l.dim.name) = (Int.range lo (hi + 1)).reverse ↔
                  hi < lo ∨ ∀ size ∈ Blocking.blockSizes nest v, size = 1))
      clusters out := by
  refine (Blocking.apply_nests ⟨s, s', h⟩).imp fun c c' hc l hl hdir lower upper he => ?_
  obtain ⟨nest, hnest, hvisits⟩ := hc l hl
  obtain ⟨hheads, hruns⟩ := hvisits lower upper he
  refine ⟨nest, hnest, hheads, fun heads hh v lo hi hv => ?_⟩
  obtain ⟨points, hrun, hpoints⟩ := hruns heads hh v lo hi hv
  rw [Blocking.blockedPoints, hdir, Direction.near, Direction.walk_add, Direction.walk_backward,
    List.map_reverse] at hpoints
  refine ⟨points, hrun, hpoints, ?_⟩
  rw [hpoints, List.reverse_inj, ← (Direction.sum_lead_backward hv.size_pos).2]
  exact Direction.range_map_add_iff _ _ _

/-- Eight points in blocks of four and two, from the top down: the nest starts and ends four points
too far up. -/
theorem blocked_backward_points_eight : ∃ c s heads points,
    ((⟨2, true⟩ : Blocking).apply [Cluster.tilableLoop.reversed]).run .empty = .ok ([c], s) ∧
      c.loops.map (·.dim.name) = ["x0_blk0", "x0_blk1", "x"] ∧
      c.loops.map (·.dim.step) = [.symbol "x0_blk0_size", .symbol "x0_blk1_size", .int 1] ∧
        List.Forall₂ LoopHead.Heads heads c.loops ∧ Runs heads (tiledRange 7) points ∧
          points.map (· "x") = [11, 10, 9, 8, 7, 6, 5, 4] := by
  obtain ⟨c, s, hrun, htaken, hwhole, hnames, hsteps⟩ := Blocking.exists_nest ⟨2, true⟩
    Cluster.tilableLoop.reversed ⟨.closed (.basic "x") .zero .zero, .backward⟩
    ["x0_blk0", "x0_blk1", "x"] [.symbol "x0_blk0_size", .symbol "x0_blk1_size", .int 1]
    List.mem_cons_self rfl rfl rfl (by decide +kernel)
  obtain ⟨hpoints, -⟩ := List.forall₂_cons.mp (blocked_backward_points hrun)
  obtain ⟨nest, hnest, ⟨heads, hheads⟩, hvisits⟩ := hpoints _ htaken rfl _ _ rfl
  obtain rfl := hwhole nest hnest
  have hsizes := Blocking.blockSizes_eq c.loops (tiledRange 7)
  rw [hsteps] at hsizes
  obtain ⟨points, hruns, hvisited, -⟩ := hvisits heads hheads (tiledRange 7) 0 7
    (Blocking.dividesEvenly_tiledRange hnames (by decide) (by decide) (by rw [hsizes]; decide))
  rw [hsizes] at hvisited
  exact ⟨c, s, heads, points, hrun, hnames, hsteps, hheads, hruns, hvisited⟩

/-- Four points in one block of four: of the points that the loop visited before, from the top down,
the nest visits the first one only. -/
theorem backward_block_overruns : ∃ c s heads points,
    ((⟨1, true⟩ : Blocking).apply [Cluster.tilableLoop.reversed]).run .empty = .ok ([c], s) ∧
      c.loops.map (·.dim.name) = ["x0_blk0", "x"] ∧
      c.loops.map (·.dim.step) = [.symbol "x0_blk0_size", .int 1] ∧
        List.Forall₂ LoopHead.Heads heads c.loops ∧ Runs heads (tiledRange 3) points ∧
          points.map (· "x") = [6, 5, 4, 3] ∧ points.map (· "x") ≠ [3, 2, 1, 0] := by
  obtain ⟨c, s, hrun, htaken, hwhole, hnames, hsteps⟩ := Blocking.exists_nest ⟨1, true⟩
    Cluster.tilableLoop.reversed ⟨.closed (.basic "x") .zero .zero, .backward⟩ ["x0_blk0", "x"]
    [.symbol "x0_blk0_size", .int 1] List.mem_cons_self rfl rfl rfl (by decide +kernel)
  obtain ⟨hmade, -⟩ := List.forall₂_cons.mp (Blocking.apply_nests ⟨_, _, hrun⟩)
  obtain ⟨nest, hnest, hvisits⟩ := hmade _ htaken
  obtain rfl := hwhole nest hnest
  obtain ⟨⟨heads, hheads⟩, hruns⟩ := hvisits _ _ rfl
  have hsizes := Blocking.blockSizes_eq c.loops (tiledRange 3)
  rw [hsteps] at hsizes
  obtain ⟨points, hpoints, hvisited⟩ := hruns heads hheads (tiledRange 3) 0 3
    (Blocking.dividesEvenly_tiledRange hnames (by decide) (by decide) (by rw [hsizes]; decide))
  rw [Blocking.blockedPoints, hsizes] at hvisited
  have hvisited : points.map (· "x") = [6, 5, 4, 3] := hvisited
  exact ⟨c, s, heads, points, hrun, hnames, hsteps, hheads, hpoints, hvisited,
    by rw [hvisited]; decide⟩

end LoopNest
