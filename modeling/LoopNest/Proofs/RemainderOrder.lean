import LoopNest.Proofs.RemainderPlaces

namespace LoopNest

namespace Place

variable {cs : List Cluster}

/-- The part does what an equation of the cluster did at a point. -/
structure Runs {c : Cluster} (d : Dimension) (v : Valuation) (P : Place cs) (S : Place [c])
    (p : Valuation) : Prop where
  source : P.source d = S.index
  covers : P.Covers d v (p d.name)

/-- The point of the nest of the part where it does that: the index of the slab stands for that of
the dimension. -/
def point (d : Dimension) (P : Place cs) (p : Valuation) : Valuation :=
  match P.equation.slab? d with
  | some i => Function.update p i.dim.name (p d.name)
  | none => p

end Place

namespace Remainder

/-- Of two instances that clash, the first still runs before the second. -/
def KeepsOrder (c : Cluster) (d : Dimension) (cs : List Cluster) (v : Valuation) : Prop :=
  ∀ (S T : Place [c]) (p q : Valuation), c.Clash v S T p q → ∀ P Q : Place cs, P.Runs d v S p →
    Q.Runs d v T q → P.RunsBefore Q (P.point d p) (Q.point d q)

/-- The two instances run in different clusters, and the parts of the second one's equation come
first: it is an earlier equation, or the same one in a loop that runs backward. -/
def Divided {c : Cluster} {cs : List Cluster} (d : Dimension) (S T : Place [c]) (P Q : Place cs) :
    Prop :=
  P.cluster ≠ Q.cluster ∧
    (T.index < S.index ∨ T.index = S.index ∧ c.ispace.direction d = .backward)

section
variable {c : Cluster} {d middle : Dimension} {lower upper : LinExpr} {cs : List Cluster}
  {groups : List (List (Interval × Equation))}

/-- The nest of a part steps through the same points as that of the cluster, if the index of its
slab follows the dimension. -/
theorem Decomposed.along_nest (h : Decomposed c d middle lower upper cs groups)
    (hc : c.NestOver d) {P : Place cs} {i : Interval}
    (hnodup : (P.nest.dimensions.map Dimension.name).Nodup) (hi : P.equation.slab? d = some i) :
    List.Forall₂ (fun l l' => ∀ r : Valuation,
      l.along (Function.update r i.dim.name (r d.name)) = l'.along r) P.nest.loops c.loops := by
  obtain ⟨pieces, m, piece, hg, hm, hequation, hslab, -⟩ := h.piece_of_place hc P
  cases hslab.symm.trans hi
  have hin : piece ∈ groups.flatten :=
    List.mem_flatten.mpr ⟨pieces, List.mem_of_getElem? hg, List.mem_of_getElem? hm⟩
  obtain ⟨e, he, first, rest, hloops, hfirst, hpiece, -⟩ := h.piece_loops hc hin
  have hnest : P.nest.loops = ⟨piece.1, first.direction⟩ :: rest := by
    rw [Cluster.loops, ← h.spaces P.nest P.nest_mem P.equation P.equation_mem, hequation, hpiece]
  rw [← Cluster.loops_map_dim, hnest, List.map_cons, List.map_cons, List.nodup_cons] at hnodup
  have hother : ∀ l ∈ rest, l.dim.name ≠ piece.1.dim.name := by
    intro l hl hname
    exact hnodup.1 (hname ▸ List.mem_map_of_mem (List.mem_map_of_mem hl))
  have hheadings := forall₂_of_headings (hc.loops e he)
  rw [hloops] at hheadings
  obtain ⟨first', rest', hhead, hrest, hown⟩ := List.forall₂_cons_left_iff.mp hheadings
  rw [hnest, hown]
  refine .cons (fun r => ?_) (((List.forall₂_and_left rest rest').mpr ⟨hother, hrest⟩).imp ?_)
  · rw [← IterationInterval.along_of_heading hhead]
    subst hfirst
    simp [IterationInterval.along, IterationInterval.dim]
  · rintro l l' ⟨hname, hheading⟩ r
    rw [← IterationInterval.along_of_heading hheading]
    simp [IterationInterval.along, hname]

/-- In one cluster parts visit the points in the order in which their equations did. -/
theorem Decomposed.same_order (h : Decomposed c d middle lower upper cs groups) (hc : c.NestOver d)
    (hnames : ∀ c' ∈ cs, (c'.dimensions.map Dimension.name).Nodup) {P Q : Place cs}
    (hcluster : P.cluster = Q.cluster) (p q : Valuation) :
    (Later P.nest.loops (Q.point d q) (P.point d p) ↔ Later c.loops q p) ∧
      (Agree P.nest.dimensions (P.point d p) (Q.point d q) ↔ Agree c.dimensions p q) := by
  obtain ⟨-, -, piece, -, -, -, hslab, -⟩ := h.piece_of_place hc P
  have hpoint : ∀ (R : Place cs) (r : Valuation), R.equation.slab? d = some piece.1 →
      R.point d r = Function.update r piece.1.dim.name (r d.name) := by
    intro R r hR
    rw [Place.point, hR]
  have halong := h.along_nest hc (hnames P.nest P.nest_mem) hslab
  rw [hpoint P p hslab, hpoint Q q ((h.slab?_congr hcluster).symm.trans hslab),
    ← Cluster.loops_map_dim, ← Cluster.loops_map_dim]
  exact ⟨later_congr (halong.imp fun _ _ hl => ⟨hl q, hl p⟩),
    agree_congr (halong.imp fun _ _ hl => ⟨hl p, hl q⟩)⟩

/-- Before, instances that run one after the other do so along the outermost loop or at one point
of it. -/
theorem along_le_of_runsBefore (houter : c.dimensions.head? = some d) {S T : Place [c]}
    {p q : Valuation} (hfirst : S.RunsBefore T p q) :
    match c.ispace.direction d with
    | .forward => p d.name ≤ q d.name
    | .backward => q d.name ≤ p d.name := by
  rw [Place.runsBefore_single, ← Cluster.loops_map_dim] at hfirst
  cases hints : c.ispace.intervals.intervals with
  | nil =>
    rw [Cluster.dimensions, IterationSpace.dimensions, IntervalGroup.dimensions, hints] at houter
    cases houter
  | cons i rest =>
    rw [Cluster.dimensions, IterationSpace.dimensions, IntervalGroup.dimensions, hints] at houter
    obtain rfl : i.dim = d := Option.some.inj houter
    rw [Cluster.loops, IterationSpace.loops, hints, List.map_cons] at hfirst
    simp only [Later, List.map_cons, Agree, List.forall_mem_cons, IterationInterval.along,
      IterationInterval.dim] at hfirst
    cases hdirection : c.ispace.direction i.dim with
    | forward =>
      rw [hdirection] at hfirst
      dsimp only at hfirst ⊢
      omega
    | backward =>
      rw [hdirection] at hfirst
      dsimp only at hfirst ⊢
      omega

/-- Instances keep their order exactly if they are not divided. -/
theorem Decomposed.runsBefore_iff (h : Decomposed c d middle lower upper cs groups)
    (hc : c.NestOver d) (hnames : ∀ c' ∈ cs, (c'.dimensions.map Dimension.name).Nodup)
    {v : Valuation}
    (hpart : Partitions c d cs v) {S T : Place [c]} {p q : Valuation}
    (hfirst : S.RunsBefore T p q) {P Q : Place cs} (hP : P.Runs d v S p) (hQ : Q.Runs d v T q) :
    P.RunsBefore Q (P.point d p) (Q.point d q) ↔ ¬Divided d S T P Q := by
  have hle := along_le_of_runsBefore hc.outermost hfirst
  have hsource : S.index = T.index → P.source d = Q.source d := fun he =>
    hP.source.trans (he.trans hQ.source.symm)
  rcases lt_trichotomy P.cluster Q.cluster with hlt | heq | hgt
  · refine iff_of_true (.inl hlt) fun ⟨_, hdivided⟩ => ?_
    have hbefore := Place.before_lt_of_cluster_lt hlt
    rcases hdivided with hindex | ⟨hindex, hbackward⟩
    · rw [← hP.source, ← hQ.source] at hindex
      exact (h.before_of_source_lt hc hindex).asymm hbefore
    · have hpoints := h.ordered hc hpart (hsource hindex.symm) hbefore hP.covers hQ.covers
      rw [hbackward] at hle
      dsimp only at hle
      omega
  · refine iff_of_true (.inr ⟨heq, ?_⟩) fun ⟨hne, _⟩ => hne heq
    obtain ⟨hlater, hagree⟩ := h.same_order hc hnames heq p q
    rw [hlater, hagree]
    refine (Place.runsBefore_single.mp hfirst).imp_right fun ⟨hlevel, hindex⟩ => ⟨hlevel, ?_⟩
    rw [← hP.source, ← hQ.source] at hindex
    exact (Place.before_lt_iff_of_cluster_eq heq).mp (h.before_of_source_lt hc hindex)
  · refine iff_of_false (by rw [Place.RunsBefore]; omega) fun hdivided => hdivided ⟨hgt.ne', ?_⟩
    have hbefore := Place.before_lt_of_cluster_lt hgt
    rcases lt_trichotomy S.index T.index with hindex | hindex | hindex
    · rw [← hP.source, ← hQ.source] at hindex
      exact absurd hbefore (h.before_of_source_lt hc hindex).asymm
    · refine .inr ⟨hindex.symm, ?_⟩
      have hpoints := h.ordered hc hpart (hsource hindex).symm hbefore hQ.covers hP.covers
      cases hdirection : c.ispace.direction d with
      | forward =>
        rw [hdirection] at hle
        dsimp only at hle
        omega
      | backward => rfl
    · exact .inl hindex

end

/-- The remainder pass leaves a cluster whose equations differ along its outermost loop alone, or it
cuts all of them around what they have in common. Their parts then partition their ranges wherever
what is before the common range does not overlap with what is behind. For such values instances
that touch one element keep their order exactly if no two of them are divided: they run in
different clusters, and the second one belongs to an earlier equation than the first or, in a loop
that runs backward, to the same one. -/
theorem apply_keepsOrder_iff {c : Cluster} {d : Dimension} {cs : List Cluster} {s s' : State}
    (h : (apply [c]).run s = .ok (cs, s')) (hc : c.NestOver d)
    (hd : c.dimensions.find? (diverges c) = some d)
    (hnames : ∀ c' ∈ cs, (c'.dimensions.map Dimension.name).Nodup) :
    cs = [c] ∨
      (∃ lower upper, CommonRange c d lower upper ∧
        ∀ v, Fits d lower upper v → Partitions c d cs v) ∧
      ∀ v, Partitions c d cs v → (KeepsOrder c d cs v ↔
        ∀ (S T : Place [c]) (p q : Valuation), c.Clash v S T p q → ∀ P Q : Place cs,
          P.Runs d v S p → Q.Runs d v T q → ¬Divided d S T P Q) := by
  refine (decomposed_of_splitCluster (splitCluster_of_apply h) hd).imp_right ?_
  rintro ⟨lower, upper, hcommon, middle, groups, hdec⟩
  refine ⟨⟨lower, upper, hcommon, fun v hfits => hdec.partitions hc hfits⟩, ?_⟩
  intro v hpart
  have hiff : ∀ {S T : Place [c]} {p q : Valuation}, c.Clash v S T p q → ∀ {P Q : Place cs},
      P.Runs d v S p → Q.Runs d v T q →
        (P.RunsBefore Q (P.point d p) (Q.point d q) ↔ ¬Divided d S T P Q) :=
    fun hclash _ _ hP hQ => hdec.runsBefore_iff hc hnames hpart hclash.first hP hQ
  constructor
  · intro hkeeps S T p q hclash P Q hP hQ
    exact (hiff hclash hP hQ).mp (hkeeps S T p q hclash P Q hP hQ)
  · intro hfree S T p q hclash P Q hP hQ
    exact (hiff hclash hP hQ).mpr (hfree S T p q hclash P Q hP hQ)

def upTo (upper : Int64) (lhs : Access) (rhs : Expr) : Equation :=
  ⟨lhs, rhs, .ofIntervals (.ofIntervals [.closed (.basic "x") (.int 0) (.int upper)]), .empty⟩

def ragged (lhs : Access) (rhs : Expr) (lhs' : Access) (rhs' : Expr) : Cluster :=
  ⟨[upTo 1 lhs rhs, upTo 0 lhs' rhs'],
    .ofIntervals (.ofIntervals [.closed (.basic "x") (.int 0) (.int 1)]), .empty, .empty⟩

theorem ragged_nestOver (lhs : Access) (rhs : Expr) (lhs' : Access) (rhs' : Expr) :
    (ragged lhs rhs lhs' rhs').NestOver (.basic "x") where
  basic d hd := ⟨"x", List.mem_singleton.mp hd⟩
  outermost := rfl
  loops e he := by
    have he : e ∈ [upTo 1 lhs rhs, upTo 0 lhs' rhs'] := he
    rcases List.mem_pair.mp he with rfl | rfl <;> rfl
  settled e he := by
    have he : e ∈ [upTo 1 lhs rhs, upTo 0 lhs' rhs'] := he
    rcases List.mem_pair.mp he with rfl | rfl <;> rfl
  chains e he := by
    have he : e ∈ [upTo 1 lhs rhs, upTo 0 lhs' rhs'] := he
    rcases List.mem_pair.mp he with rfl | rfl <;> exact List.forall_mem_nil _

theorem ragged_commonRange {lhs lhs' : Access} {rhs rhs' : Expr} {lower upper : LinExpr}
    (h : CommonRange (ragged lhs rhs lhs' rhs') (.basic "x") lower upper) :
    lower = .int 0 ∧ upper = .int 0 := by
  obtain ⟨intervals, hover, hcommon⟩ := h
  obtain _ | ⟨hfirst, _ | ⟨hsecond, ⟨⟩⟩⟩ := hover
  cases hfirst
  cases hsecond
  have hrange : commonInterval? [.closed (.basic "x") (.int 0) (.int 1),
      .closed (.basic "x") (.int 0) (.int 0)] =
        .ok (some (.closed (.basic "x") (.int 0) (.int 0))) := rfl
  cases hrange.symm.trans hcommon
  exact ⟨rfl, rfl⟩

theorem ragged_places {lhs lhs' : Access} {rhs rhs' : Expr}
    {S T : Place [ragged lhs rhs lhs' rhs']} (h : T.index < S.index) :
    S.equation = upTo 0 lhs' rhs' ∧ T.equation = upTo 1 lhs rhs := by
  have hS : [upTo 1 lhs rhs, upTo 0 lhs' rhs'][S.index]? = some S.equation := S.single_equation
  have hT : [upTo 1 lhs rhs, upTo 0 lhs' rhs'][T.index]? = some T.equation := T.single_equation
  have hlt : S.index < 2 := (List.getElem?_eq_some_iff.mp hS).1
  obtain ⟨hone, hzero⟩ : S.index = 1 ∧ T.index = 0 := by omega
  rw [hone] at hS
  rw [hzero] at hT
  exact ⟨(Option.some.inj hS).symm, (Option.some.inj hT).symm⟩

def loopNames (cs : List Cluster) : List (List String) :=
  cs.map fun c => c.dimensions.map Dimension.name

theorem nodup_of_loopNames {cs : List Cluster} {names : List (List String)}
    (h : loopNames cs = names) (hnames : ∀ l ∈ names, l.Nodup) :
    ∀ c ∈ cs, (c.dimensions.map Dimension.name).Nodup := by
  subst h
  exact fun c hc => hnames _ (List.mem_map_of_mem hc)

def lagging : Cluster :=
  ragged (.around "x" "u" 0) (.int 1) (.around "x" "w" 0) (.access (.around "x" "u" (-1)))

theorem lagging_keepsOrder :
    ∃ cs s', (apply [lagging]).run .empty = .ok (cs, s') ∧
      loopNames cs = [["x_mr0"], ["x_rr0"], ["x_mr0"]] ∧
      ∀ v : Valuation, v "x_m" ≤ v "x_M" + 1 → KeepsOrder lagging (.basic "x") cs v := by
  have hread : ((apply [lagging]).run .empty).toOption.map (fun r => loopNames r.1) =
      some [["x_mr0"], ["x_rr0"], ["x_mr0"]] := by decide +kernel
  obtain ⟨⟨cs, s'⟩, hrun, hcs⟩ := exists_of_toOption hread
  have hcs : loopNames cs = [["x_mr0"], ["x_rr0"], ["x_mr0"]] := hcs
  refine ⟨cs, s', hrun, hcs, fun v hv => ?_⟩
  have hnames := nodup_of_loopNames hcs (by decide)
  rcases apply_keepsOrder_iff hrun (ragged_nestOver _ _ _ _) rfl hnames with
    rfl | ⟨⟨lower, upper, hcommon, hfits⟩, hiff⟩
  · exact absurd hcs (by decide)
  obtain ⟨rfl, rfl⟩ := ragged_commonRange hcommon
  refine (hiff v (hfits v ?_)).mpr ?_
  · rw [Fits, LinExpr.int_denote, show (0 : Int64).toInt = 0 from rfl, Int.add_zero, Int.add_zero]
    exact hv
  · rintro S T p q hclash P Q - - ⟨-, hindex | ⟨-, hbackward⟩⟩
    · have hle : p "x" ≤ q "x" := along_le_of_runsBefore (d := .basic "x") rfl hclash.first
      obtain ⟨x, hx, y, hy, -, hsame⟩ := hclash.touch
      obtain ⟨hS, hT⟩ := ragged_places hindex
      rw [hS] at hx
      rw [hT] at hy
      have hx : x ∈ [(Access.around "x" "w" 0, true), (Access.around "x" "u" (-1), false)] := hx
      have hy : y ∈ [(Access.around "x" "u" 0, true)] := hy
      have hzero : (0 : Int64).toInt = 0 := rfl
      have hback : (-1 : Int64).toInt = -1 := rfl
      rw [List.mem_singleton.mp hy, Access.around_element] at hsame
      rcases List.mem_pair.mp hx with rfl | rfl
      · rw [Access.around_element] at hsame
        have harray : "w" = "u" := congrArg Prod.fst hsame
        exact absurd harray (by decide)
      · rw [Access.around_element] at hsame
        obtain ⟨hpoint, -⟩ := List.cons.inj (congrArg Prod.snd hsame)
        omega
    · cases hbackward

def ahead : Cluster :=
  ragged (.around "x" "u" 0) (.access (.around "x" "w" (-1))) (.around "x" "w" 0)
    (.access (.around "x" "u" 0))

theorem upTo_point {upper : Int64} {lhs : Access} {rhs : Expr} {v p : Valuation}
    (hp : ∀ s, s ≠ "x" → p s = v s) (hlow : v "x_m" ≤ p "x")
    (hhigh : p "x" ≤ v "x_M" + upper.toInt) : (upTo upper lhs rhs).Point v p := by
  constructor
  · intro s hs
    have hx : Dimension.basic "x" ∈ (upTo upper lhs rhs).ispace.dimensions :=
      List.mem_singleton.mpr rfl
    exact hp s (hs _ hx).symm
  · intro i hi
    have hi : i ∈ [Interval.closed (.basic "x") (.int 0) (.int upper)] := hi
    have hzero : (0 : Int64).toInt = 0 := rfl
    rw [List.mem_singleton.mp hi, Interval.InRange, LinExpr.int_denote, LinExpr.int_denote, hzero,
      Int.add_zero]
    rw [← hp "x_m" (by decide)] at hlow
    rw [← hp "x_M" (by decide)] at hhigh
    exact ⟨hlow, hhigh⟩

/-- The write of `w[x]` comes too late for the read at the next point: that one is in the part of
the first equation that sticks out, which runs before all of the second equation. -/
theorem ahead_overtaken :
    ∃ cs s', (apply [ahead]).run .empty = .ok (cs, s') ∧
      loopNames cs = [["x_mr0"], ["x_rr0"], ["x_mr0"]] ∧ ahead.NestOver (.basic "x") ∧
      ahead.dimensions.find? (diverges ahead) = some (.basic "x") ∧
      ∃ v, Partitions ahead (.basic "x") cs v ∧ ¬KeepsOrder ahead (.basic "x") cs v := by
  have hread : ((apply [ahead]).run .empty).toOption.map (fun r => loopNames r.1) =
      some [["x_mr0"], ["x_rr0"], ["x_mr0"]] := by decide +kernel
  obtain ⟨⟨cs, s'⟩, hrun, hcs⟩ := exists_of_toOption hread
  have hcs : loopNames cs = [["x_mr0"], ["x_rr0"], ["x_mr0"]] := hcs
  have hc : ahead.NestOver (.basic "x") := ragged_nestOver _ _ _ _
  have hd : ahead.dimensions.find? (diverges ahead) = some (.basic "x") := rfl
  refine ⟨cs, s', hrun, hcs, hc, hd, fun _ => 0, ?_⟩
  rcases decomposed_of_splitCluster (splitCluster_of_apply hrun) hd with
    rfl | ⟨lower, upper, hcommon, middle, groups, hdec⟩
  · exact absurd hcs (by decide)
  obtain ⟨rfl, rfl⟩ := ragged_commonRange hcommon
  have hpart : Partitions ahead (.basic "x") cs fun _ => 0 :=
    hdec.partitions hc (by decide)
  refine ⟨hpart, fun hkeeps => ?_⟩
  -- the write at 0, which the equation in second place does, and the read at 1
  let S : Place [ahead] := ⟨0, 1, ahead, upTo 0 _ _, rfl, rfl⟩
  let T : Place [ahead] := ⟨0, 0, ahead, upTo 1 _ _, rfl, rfl⟩
  let p : Valuation := fun _ => 0
  let q : Valuation := fun s => if s = "x" then 1 else 0
  have hclash : ahead.Clash (fun _ => 0) S T p q := by
    refine ⟨upTo_point (fun _ _ => rfl) (by decide) (by decide),
      upTo_point (fun s hs => if_neg hs) (by decide) (by decide),
      ⟨(.around "x" "w" 0, true), List.mem_cons_self, (.around "x" "w" (-1), false),
        List.mem_cons_of_mem _ List.mem_cons_self, .inl rfl, ?_⟩, ?_⟩
    · rw [Access.around_element, Access.around_element]
      rfl
    · exact Place.runsBefore_single.mpr (.inl (.inl (by decide)))
  have hwhole : S.equation.ispace.intervals.find? (.basic "x") =
    some (.closed (.basic "x") (.int 0) (.int 0)) := rfl
  obtain ⟨P, hP, hwrite⟩ := (hpart.union S _ hwhole 0).mp (by decide)
  obtain ⟨Q, hQ, hread⟩ := (hpart.union T (.closed (.basic "x") (.int 0) (.int 1)) rfl 1).mp
    (by decide)
  -- a part in the same cluster as the read would cover 1, where the write does not run
  have hapart : P.cluster ≠ Q.cluster := by
    intro hcluster
    obtain ⟨i, hi, hcovers⟩ := hread
    have hone := (hpart.union S _ hwhole 1).mpr
      ⟨P, hP, i, (hdec.slab?_congr hcluster).trans hi, hcovers⟩
    exact absurd hone (by decide)
  have hbefore := hkeeps S T p q hclash P Q ⟨hP, hwrite⟩ ⟨hQ, hread⟩
  exact (hdec.runsBefore_iff hc (nodup_of_loopNames hcs (by decide)) hpart hclash.first
    ⟨hP, hwrite⟩ ⟨hQ, hread⟩).mp hbefore ⟨hapart, .inl (by decide)⟩

end Remainder
end LoopNest
