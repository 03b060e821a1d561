import LoopNest.Proofs.PassMoves
import LoopNest.Proofs.Places
import LoopNest.Proofs.RemainderParts
import LoopNest.Proofs.SettledGroups

namespace LoopNest

def IterationInterval.heading (l : IterationInterval) : Dimension × Direction :=
  (l.dim, l.direction)

theorem IterationInterval.along_of_heading {l l' : IterationInterval} (h : l.heading = l'.heading)
    (p : Valuation) : l.along p = l'.along p := by
  obtain ⟨hdim, hdirection⟩ := Prod.mk.inj h
  rw [along, along, hdim, hdirection]

theorem forall₂_of_headings {loops loops' : List IterationInterval}
    (h : loops.map IterationInterval.heading = loops'.map IterationInterval.heading) :
    List.Forall₂ (fun l l' => l.heading = l'.heading) loops loops' := by
  rw [← List.forall₂_eq_eq_eq, List.forall₂_map_left_iff, List.forall₂_map_right_iff] at h
  exact h

/-- A nest over basic dimensions with an outermost one. All equations of the cluster run in its
loops, each over intervals of its own. -/
structure Cluster.NestOver (c : Cluster) (d : Dimension) : Prop where
  basic : c.IsBasic
  outermost : c.dimensions.head? = some d
  loops : ∀ e ∈ c.equations, e.ispace.loops.map IterationInterval.heading =
    c.loops.map IterationInterval.heading
  settled : ∀ e ∈ c.equations, e.ispace.Settled
  chains : ∀ e ∈ c.equations, ∀ chain ∈ e.ispace.intervals.relations.toList, ∀ f ∈ chain, f.IsBasic

theorem Cluster.NestOver.dimensions_eq {c : Cluster} (hc : c.NestOver d) (he : e ∈ c.equations) :
    e.ispace.dimensions = c.dimensions := by
  have hfst := congrArg (List.map Prod.fst) (hc.loops e he)
  rw [List.map_map, List.map_map] at hfst
  rw [← IterationSpace.loops_map_dim, ← loops_map_dim]
  exact hfst

/-- A dimension that is not basic is new to the nest. -/
theorem Cluster.NestOver.not_involves {c : Cluster} (hc : c.NestOver d) (he : e ∈ c.equations)
    (hf : ¬f.IsBasic) : ¬e.ispace.intervals.Involves f := by
  rintro (hin | ⟨chain, hchain, hin⟩)
  · have hin : f ∈ e.ispace.dimensions := hin
    rw [hc.dimensions_eq he] at hin
    exact hf (hc.basic f hin)
  · exact hf (hc.chains e he chain hchain f hin)

/-- An interval that takes the place of the outermost one is traversed the way that one was. -/
theorem IterationSpace.expand_loops {s s' : IterationSpace} {i : Interval} (hs : s.Settled)
    (hnew : ¬s.intervals.Involves i.dim) (houter : s.dimensions.head? = some d)
    (h : s.expand d [i] [] = .ok s') :
    ∃ first rest, s.loops = first :: rest ∧ first.dim = d ∧
      s'.loops = ⟨i, first.direction⟩ :: rest := by
  obtain ⟨g, hg, h⟩ := Returns.of_bind (returns_ok h)
  rw [Returns.of_pure h]
  obtain ⟨k, hk, hgi⟩ := IntervalGroup.expand_in_place hs hnew hg
  cases hints : s.intervals.intervals with
  | nil =>
    rw [dimensions, IntervalGroup.dimensions, hints] at houter
    cases houter
  | cons first rest =>
    have hfirst : first.dim = d := by
      rw [dimensions, IntervalGroup.dimensions, hints] at houter
      exact Option.some.inj houter
    have hk0 : k = 0 := by
      rw [IntervalGroup.indexOf?, hints, List.findIdx?_cons, if_pos (decide_eq_true hfirst)] at hk
      exact (Option.some.inj hk).symm
    rw [hk0, hints] at hgi
    have hgi : g.intervals = i :: rest := hgi
    have hnd := IntervalGroup.build_dimensions_nodup hs
    rw [IntervalGroup.dimensions, hints, List.map_cons, List.nodup_cons, hfirst] at hnd
    refine ⟨⟨first, s.direction first.dim⟩, rest.map fun j => ⟨j, s.direction j.dim⟩,
      by rw [loops, hints, List.map_cons], hfirst, ?_⟩
    rw [loops]
    dsimp only
    rw [hgi, List.map_cons]
    refine congrArg₂ List.cons ?_ (List.map_congr_left fun j hj => ?_)
    · simp [direction, hfirst, SortedMap.find?_insert_self]
    · have hjd : j.dim ≠ d := fun he => hnd.1 (he ▸ List.mem_map_of_mem hj)
      have hji : j.dim ≠ i.dim := by
        intro he
        refine hnew (.inl ?_)
        rw [← he, IntervalGroup.dimensions, hints]
        exact List.mem_map_of_mem (List.mem_cons_of_mem _ hj)
      simp [direction, SortedMap.find?_insert, SortedMap.find?_erase, hjd, hji]

/-- Clusters are made of all equations in order, each in the space of its cluster. -/
theorem Cluster.clusterize_cases {equations : List Equation} {properties : Properties}
    (h : clusterize equations properties = .ok cs) :
    equationsOf cs = equations ∧ ∀ c ∈ cs, ∀ e ∈ c.equations, e.ispace = c.ispace := by
  obtain ⟨latestFirst, hfold, rfl⟩ := returns_map (returns_ok h)
  have hall := returns_foldlM (P := fun done acc => equationsOf acc.reverse = done ∧
    ∀ c ∈ acc, ∀ e ∈ c.equations, e.ispace = c.ispace) hfold ⟨rfl, List.forall_mem_nil _⟩ ?_
  · exact ⟨hall.1, fun c hc => hall.2 c (List.mem_reverse.mp hc)⟩
  · rintro done e acc next - ⟨rfl, hacc⟩ hnext
    rcases addEquation_cases hnext with rfl | ⟨latest, earlier, dspace, rfl, hsame, rfl⟩
    · exact ⟨by simp [equationsOf, ofEquation],
        List.forall_mem_cons.mpr ⟨by simp [ofEquation], hacc⟩⟩
    · rw [List.forall_mem_cons] at hacc
      refine ⟨by simp [equationsOf], List.forall_mem_cons.mpr ⟨fun f hf => ?_, hacc.2⟩⟩
      rcases List.mem_append.mp hf with hf | hf
      · exact hacc.1 f hf
      · rw [List.mem_singleton.mp hf]
        exact hsame.symm

def Equation.slab? (d : Dimension) (e : Equation) : Option Interval :=
  e.ispace.intervals.intervals.find? (·.dim.parent? = some d)

namespace Place

variable {cs : List Cluster}

/-- The number of the equation that a part comes from. Every equation has one middle part, its left
part comes before and its right part behind. -/
def source (d : Dimension) (P : Place cs) : Nat :=
  let middles := P.before.countP fun e => (e.slab? d).any (·.dim.isMiddle)
  match (P.equation.slab? d).map Interval.dim with
  | some (.sub _ _ (.right _)) => middles - 1
  | _ => middles

def Covers (d : Dimension) (v : Valuation) (P : Place cs) (p : Int) : Prop :=
  ∃ i, P.equation.slab? d = some i ∧ i.Covers v p

end Place

namespace Remainder

structure Partitions (c : Cluster) (d : Dimension) (cs : List Cluster) (v : Valuation) : Prop where
  union : ∀ (S : Place [c]) (whole : Interval), S.equation.ispace.intervals.find? d = some whole →
    ∀ p, whole.Covers v p ↔ ∃ P : Place cs, P.source d = S.index ∧ P.Covers d v p
  unique : ∀ (P Q : Place cs) (p : Int), P.source d = Q.source d → P.Covers d v p →
    Q.Covers d v p → P = Q

structure Decomposed (c : Cluster) (d middle : Dimension) (lower upper : LinExpr)
    (cs : List Cluster) (groups : List (List (Interval × Equation))) : Prop where
  equations : equationsOf cs = groups.flatten.map Prod.snd
  spaces : ∀ c' ∈ cs, ∀ e ∈ c'.equations, e.ispace = c'.ispace
  spans : Spans d middle lower upper
  cuts : ∀ (n : Nat) pieces, groups[n]? = some pieces → ∃ e whole, c.equations[n]? = some e ∧
    e.ispace.intervals.find? d = some whole ∧ Encloses whole lower upper ∧
    Cut d middle lower upper e whole pieces
  complete : ∀ (n : Nat) e, c.equations[n]? = some e → ∃ pieces, groups[n]? = some pieces

theorem arranged_cases {α : Type} {left? right? : Option α} {centre a : α} {m : Nat}
    (h : (left?.toList ++ centre :: right?.toList)[m]? = some a) :
    (left? = some a ∧ m = 0) ∨ (a = centre ∧ m = left?.toList.length) ∨
      (right? = some a ∧ m = left?.toList.length + 1) := by
  cases left? <;> cases right? <;> rcases m with _ | _ | _ | m <;> simp_all

section
variable {d middle : Dimension} {lower upper : LinExpr} {e : Equation} {whole : Interval}
  {pieces : List (Interval × Equation)} {q : Interval × Equation} {m : Nat}

/-- Every piece is over a slab of the dimension. -/
theorem Cut.slab (h : Cut d middle lower upper e whole pieces) (hs : Spans d middle lower upper)
    (hq : q ∈ pieces) : ∃ name region, q.1.dim = .sub name d region := by
  obtain ⟨l, u, -, left?, right?, hleft, hright, centre, rfl⟩ := h.arranged
  rcases List.mem_append.mp hq with hq | hq
  · rw [Option.mem_toList.mp hq] at hleft
    obtain ⟨⟨name, thickness, hdim⟩, -⟩ := hleft
    exact ⟨name, _, hdim⟩
  · rcases List.mem_cons.mp hq with rfl | hq
    · obtain ⟨name, negated, rfl, -⟩ := hs
      exact ⟨name, _, rfl⟩
    · rw [Option.mem_toList.mp hq] at hright
      obtain ⟨⟨name, thickness, hdim⟩, -⟩ := hright
      exact ⟨name, _, hdim⟩

/-- The pieces before a middle one are not middle ones, and a right one has one before it. -/
theorem Cut.middles_before (h : Cut d middle lower upper e whole pieces)
    (hs : Spans d middle lower upper) (hm : pieces[m]? = some q) :
    (pieces.take m).countP (·.1.dim.isMiddle) =
      match q.1.dim with
      | .sub _ _ (.right _) => 1
      | _ => 0 := by
  obtain ⟨l, u, -, left?, right?, hleft, hright, centre, rfl⟩ := h.arranged
  obtain ⟨name, negated, rfl, -⟩ := hs
  have hbefore : left?.toList.countP (·.1.dim.isMiddle) = 0 := by
    cases left? with
    | none => rfl
    | some left =>
      obtain ⟨⟨name, thickness, hdim⟩, -⟩ := hleft
      simp [hdim, Dimension.isMiddle]
  rcases arranged_cases hm with ⟨rfl, rfl⟩ | ⟨rfl, rfl⟩ | ⟨rfl, rfl⟩
  · obtain ⟨⟨name, thickness, hdim⟩, -⟩ := hleft
    simp [hdim]
  · rw [List.take_left, hbefore]
    rfl
  · obtain ⟨⟨name', thickness, hdim⟩, -⟩ := hright
    rw [hdim, List.take_append, List.countP_append, List.take_of_length_le (by simp), hbefore]
    simp [Interval.dim, Dimension.isMiddle]

/-- Every group has one middle piece. -/
theorem Cut.middles (h : Cut d middle lower upper e whole pieces)
    (hs : Spans d middle lower upper) : pieces.countP (·.1.dim.isMiddle) = 1 := by
  obtain ⟨l, u, -, left?, right?, hleft, hright, centre, rfl⟩ := h.arranged
  obtain ⟨name, negated, rfl, -⟩ := hs
  have hnot : ∀ side : Option (Interval × Equation),
      (∀ q ∈ side, q.1.dim.isMiddle = false) → side.toList.countP (·.1.dim.isMiddle) = 0 := by
    intro side hside
    cases side <;> simp_all
  rw [List.countP_append, List.countP_cons, hnot left? ?_, hnot right? ?_]
  · rfl
  · rintro q ⟨⟩
    obtain ⟨⟨name, thickness, hdim⟩, -⟩ := hright
    rw [hdim]
    rfl
  · rintro q ⟨⟩
    obtain ⟨⟨name, thickness, hdim⟩, -⟩ := hleft
    rw [hdim]
    rfl

/-- Of two pieces that do not overlap and stay within the whole, the one that stands first covers
the smaller points. -/
theorem Cut.ordered (h : Cut d middle lower upper e whole pieces)
    (hs : Spans d middle lower upper) {q' : Interval × Equation} {m' : Nat} {v : Valuation}
    {p p' : Int} (hlt : m < m') (hm : pieces[m]? = some q) (hm' : pieces[m']? = some q')
    (hq : q.1.Covers v p) (hq' : q'.1.Covers v p') (hwhole : whole.Covers v p)
    (hapart : ¬q'.1.Covers v p) : p < p' := by
  obtain ⟨l, u, rfl, left?, right?, hleft, hright, centre, rfl⟩ := h.arranged
  have hfirst := arranged_cases hm
  rcases arranged_cases hm' with ⟨-, rfl⟩ | ⟨rfl, rfl⟩ | ⟨rfl, rfl⟩
  · omega
  · rcases hfirst with ⟨rfl, rfl⟩ | ⟨-, rfl⟩ | ⟨-, rfl⟩
    · have hp := (hleft.2 v p).mp hq
      have hp' := (hs.covers v p').mp hq'
      omega
    · omega
    · omega
  · rcases hfirst with ⟨rfl, rfl⟩ | ⟨rfl, rfl⟩ | ⟨-, rfl⟩
    · have hp' := (hright.2 v p').mp hq'
      have hnot := mt (hright.2 v p).mpr hapart
      have hwhole : _ ≤ p ∧ p ≤ _ := hwhole
      omega
    · have hp := (hs.covers v p).mp hq
      have hp' := (hright.2 v p').mp hq'
      omega
    · omega

/-- Pieces that have a point in common are the same one. -/
theorem Partition.eq_of_covers {v : Valuation} {p : Int} {q' : Interval × Equation} {m' : Nat}
    (h : Partition v whole (pieces.map Prod.fst)) (hm : pieces[m]? = some q)
    (hm' : pieces[m']? = some q') (hq : q.1.Covers v p) (hq' : q'.1.Covers v p) : m = m' := by
  have hapart : ∀ {m m' : Nat} {q q' : Interval × Equation}, m < m' → pieces[m]? = some q →
      pieces[m']? = some q' → q.1.Covers v p → ¬q'.1.Covers v p := by
    intro m m' q q' hlt hm hm'
    obtain ⟨hl, rfl⟩ := List.getElem?_eq_some_iff.mp hm
    obtain ⟨hl', rfl⟩ := List.getElem?_eq_some_iff.mp hm'
    exact List.pairwise_iff_getElem.mp (List.pairwise_map.mp h.disjoint) m m' hl hl' hlt p
  rcases lt_trichotomy m m' with hlt | heq | hgt
  · exact absurd hq' (hapart hlt hm hm' hq)
  · exact heq
  · exact absurd hq (hapart hgt hm' hm hq')

end

theorem countP_flatten_of_one {α : Type} {lists : List (List α)} {f : α → Bool}
    (h : ∀ l ∈ lists, l.countP f = 1) : lists.flatten.countP f = lists.length := by
  induction lists with
  | nil => rfl
  | cons l lists ih =>
    rw [List.forall_mem_cons] at h
    rw [List.flatten_cons, List.countP_append, h.1, ih h.2, List.length_cons, Nat.add_comm]

section
variable {c : Cluster} {d middle : Dimension} {lower upper : LinExpr} {cs : List Cluster}
  {groups : List (List (Interval × Equation))}

/-- The nest of a piece is that of its equation, with the slab as the outermost loop. -/
theorem Decomposed.piece_loops (h : Decomposed c d middle lower upper cs groups) (hc : c.NestOver d)
    {q : Interval × Equation} (hq : q ∈ groups.flatten) :
    ∃ e ∈ c.equations, ∃ first rest, e.ispace.loops = first :: rest ∧ first.dim = d ∧
      q.2.ispace.loops = ⟨q.1, first.direction⟩ :: rest ∧ q.2.slab? d = some q.1 := by
  obtain ⟨pieces, hp, hq⟩ := List.mem_flatten.mp hq
  obtain ⟨n, hn'⟩ := List.getElem?_of_mem hp
  obtain ⟨e, whole, he, -, -, hcut⟩ := h.cuts n pieces hn'
  have he : e ∈ c.equations := List.mem_of_getElem? he
  obtain ⟨name, region, hslab⟩ := hcut.slab h.spans hq
  have hnot : ¬q.1.dim.IsBasic := by
    rintro ⟨name', hbasic⟩
    rw [hslab] at hbasic
    cases hbasic
  obtain ⟨first, rest, hloops, hfirst, hpart⟩ := IterationSpace.expand_loops (hc.settled e he)
    (hc.not_involves he hnot) (hc.dimensions_eq he ▸ hc.outermost) (hcut.moved q hq).space
  refine ⟨e, he, first, rest, hloops, hfirst, hpart, ?_⟩
  rw [Equation.slab?, ← IterationSpace.loops_map_interval, hpart, List.map_cons, List.find?_cons]
  simp [hslab, Dimension.parent?]

/-- Before a piece stand the middle pieces of all earlier groups and those of its own. -/
theorem Decomposed.countP_middles (h : Decomposed c d middle lower upper cs groups) {n m : Nat}
    {pieces : List (Interval × Equation)} (hg : groups[n]? = some pieces) :
    ((groups.take n).flatten ++ pieces.take m).countP (·.1.dim.isMiddle) =
      n + (pieces.take m).countP (·.1.dim.isMiddle) := by
  have hone : ∀ l ∈ groups.take n, l.countP (·.1.dim.isMiddle) = 1 := by
    intro l hl
    obtain ⟨k, hk⟩ := List.getElem?_of_mem (List.mem_of_mem_take hl)
    obtain ⟨e, whole, -, -, -, hcut⟩ := h.cuts k l hk
    exact hcut.middles h.spans
  have hlt : n < groups.length := (List.getElem?_eq_some_iff.mp hg).1
  rw [List.countP_append, countP_flatten_of_one hone, List.length_take, Nat.min_eq_left hlt.le]

/-- The part at a place is the piece that stands there, and comes from the equation of its group. -/
theorem Decomposed.source_eq (h : Decomposed c d middle lower upper cs groups)
    (hc : c.NestOver d) {P : Place cs} {n m : Nat} {pieces : List (Interval × Equation)}
    {q : Interval × Equation} (hg : groups[n]? = some pieces) (hm : pieces[m]? = some q)
    (hbefore : P.before = ((groups.take n).flatten ++ pieces.take m).map Prod.snd)
    (hequation : P.equation = q.2) : P.source d = n ∧ P.equation.slab? d = some q.1 := by
  obtain ⟨e, whole, -, -, -, hcut⟩ := h.cuts n pieces hg
  have hslab : ∀ {pieces}, pieces ∈ groups → ∀ {q}, q ∈ pieces → q.2.slab? d = some q.1 := by
    intro pieces hp q hq
    obtain ⟨-, -, -, -, -, -, -, hslab⟩ := h.piece_loops hc (List.mem_flatten.mpr ⟨pieces, hp, hq⟩)
    exact hslab
  have hpieces : pieces ∈ groups := List.mem_of_getElem? hg
  have hq : q ∈ pieces := List.mem_of_getElem? hm
  have hown : P.equation.slab? d = some q.1 := hequation ▸ hslab hpieces hq
  refine ⟨?_, hown⟩
  have hcount : P.before.countP (fun e => (e.slab? d).any (·.dim.isMiddle)) =
      n + (pieces.take m).countP (·.1.dim.isMiddle) := by
    rw [← h.countP_middles hg, hbefore, List.countP_map]
    refine List.countP_congr fun q hq => ?_
    have hown : q.2.slab? d = some q.1 := by
      rcases List.mem_append.mp hq with hq | hq
      · obtain ⟨l, hl, hq⟩ := List.mem_flatten.mp hq
        exact hslab (List.mem_of_mem_take hl) hq
      · exact hslab hpieces (List.mem_of_mem_take hq)
    simp [hown]
  obtain ⟨name, region, hdim⟩ := hcut.slab h.spans hq
  rw [hcut.middles_before h.spans hm, hdim] at hcount
  rw [Place.source, hcount, hown, Option.map_some, hdim]
  cases region <;> rfl

/-- Every part is one of the pieces. -/
theorem Decomposed.piece_of_place (h : Decomposed c d middle lower upper cs groups)
    (hc : c.NestOver d) (P : Place cs) :
    ∃ pieces m q, groups[P.source d]? = some pieces ∧ pieces[m]? = some q ∧ P.equation = q.2 ∧
      P.equation.slab? d = some q.1 ∧
      P.before.length = (groups.take (P.source d)).flatten.length + m := by
  obtain ⟨after, hsplit⟩ := P.equationsOf_split
  rw [h.equations, List.map_eq_append_iff] at hsplit
  obtain ⟨before, rest, hflat, hbefore, hrest⟩ := hsplit
  obtain ⟨q, rest, rfl, hq, -⟩ := List.map_eq_cons_iff.mp hrest
  obtain ⟨n, pieces, m, hg, hm, rfl⟩ := exists_of_flatten_split hflat
  obtain ⟨hsource, hslab⟩ := h.source_eq hc hg hm hbefore.symm hq.symm
  have hlt : m < pieces.length := (List.getElem?_eq_some_iff.mp hm).1
  rw [hsource]
  refine ⟨pieces, m, q, hg, hm, hq.symm, hslab, ?_⟩
  rw [← hbefore, List.length_map, List.length_append, List.length_take, Nat.min_eq_left hlt.le]

/-- Every piece is the part at some place. -/
theorem Decomposed.place_of_piece (h : Decomposed c d middle lower upper cs groups)
    (hc : c.NestOver d) {n m : Nat} {pieces : List (Interval × Equation)} {q : Interval × Equation}
    (hg : groups[n]? = some pieces) (hm : pieces[m]? = some q) :
    ∃ P : Place cs, P.source d = n ∧ P.equation.slab? d = some q.1 := by
  obtain ⟨after, hsplit⟩ := flatten_split hg hm
  have hequations := h.equations
  rw [hsplit, List.map_append, List.map_cons] at hequations
  obtain ⟨P, hbefore, hequation⟩ := Place.exists_of_split hequations
  exact ⟨P, h.source_eq hc hg hm hbefore hequation⟩

/-- The parts of an earlier equation come first. -/
theorem Decomposed.before_of_source_lt (h : Decomposed c d middle lower upper cs groups)
    (hc : c.NestOver d) {P Q : Place cs} (hlt : P.source d < Q.source d) :
    P.before.length < Q.before.length := by
  obtain ⟨pieces, m, q, hg, hm, -, -, hP⟩ := h.piece_of_place hc P
  obtain ⟨-, m', -, -, -, -, -, hQ⟩ := h.piece_of_place hc Q
  have hfar := flatten_take_length_lt hg hm hlt
  omega

/-- Where what is before the common range and what is behind do not overlap, the parts partition
the ranges of the equations. -/
theorem Decomposed.partitions (h : Decomposed c d middle lower upper cs groups)
    (hc : c.NestOver d) {v : Valuation} (hfits : Fits d lower upper v) : Partitions c d cs v := by
  constructor
  · intro S whole hwhole p
    have hS := S.single_equation
    obtain ⟨pieces, hg⟩ := h.complete S.index S.equation hS
    obtain ⟨e, whole', he, hwhole', hencl, hcut⟩ := h.cuts S.index pieces hg
    cases hS.symm.trans he
    cases hwhole.symm.trans hwhole'
    rw [(hcut.partition h.spans hencl hfits).union p]
    constructor
    · rintro ⟨i, hi, hp⟩
      obtain ⟨q, hq, rfl⟩ := List.mem_map.mp hi
      obtain ⟨m, hm⟩ := List.getElem?_of_mem hq
      obtain ⟨P, hsource, hslab⟩ := h.place_of_piece hc hg hm
      exact ⟨P, hsource, q.1, hslab, hp⟩
    · rintro ⟨P, hsource, i, hi, hp⟩
      obtain ⟨pieces', m, q, hg', hm, -, hslab, -⟩ := h.piece_of_place hc P
      rw [hsource] at hg'
      cases hg.symm.trans hg'
      cases hi.symm.trans hslab
      exact ⟨q.1, List.mem_map_of_mem (List.mem_of_getElem? hm), hp⟩
  · intro P Q p hsource hP hQ
    obtain ⟨pieces, m, q, hg, hm, -, hslab, hbefore⟩ := h.piece_of_place hc P
    obtain ⟨pieces', m', q', hg', hm', -, hslab', hbefore'⟩ := h.piece_of_place hc Q
    rw [← hsource] at hg' hbefore'
    cases hg.symm.trans hg'
    obtain ⟨e, whole, -, -, hencl, hcut⟩ := h.cuts _ pieces hg
    obtain ⟨i, hi, hp⟩ := hP
    obtain ⟨i', hi', hp'⟩ := hQ
    cases hi.symm.trans hslab
    cases hi'.symm.trans hslab'
    have hm := hcut.partition h.spans hencl hfits |>.eq_of_covers hm hm' hp hp'
    refine Place.eq_of_before_length ?_
    rw [hbefore, hbefore', hm]

/-- Of two parts of one equation, the one that comes first covers the smaller points. -/
theorem Decomposed.ordered (h : Decomposed c d middle lower upper cs groups) (hc : c.NestOver d)
    {v : Valuation} (hpart : Partitions c d cs v) {P Q : Place cs}
    (hsource : P.source d = Q.source d) (hlt : P.before.length < Q.before.length) {p p' : Int}
    (hP : P.Covers d v p) (hQ : Q.Covers d v p') : p < p' := by
  obtain ⟨pieces, m, q, hg, hm, -, hslab, hbefore⟩ := h.piece_of_place hc P
  obtain ⟨pieces', m', q', hg', hm', -, hslab', hbefore'⟩ := h.piece_of_place hc Q
  rw [← hsource] at hg' hbefore'
  cases hg.symm.trans hg'
  obtain ⟨e, whole, he, hwhole, -, hcut⟩ := h.cuts _ pieces hg
  have hin : whole.Covers v p :=
    (hpart.union ⟨0, P.source d, c, e, rfl, he⟩ whole hwhole p).mpr ⟨P, rfl, hP⟩
  have hapart : ¬q'.1.Covers v p := by
    intro hp
    have hsame := hpart.unique P Q p hsource hP ⟨q'.1, hslab', hp⟩
    exact hlt.ne (congrArg (fun R => R.before.length) hsame)
  obtain ⟨i, hi, hp⟩ := hP
  obtain ⟨i', hi', hp'⟩ := hQ
  cases hi.symm.trans hslab
  cases hi'.symm.trans hslab'
  exact hcut.ordered h.spans (by omega) hm hm' hp hp' hin hapart

/-- The parts in one cluster share their slab. -/
theorem Decomposed.slab?_congr (h : Decomposed c d middle lower upper cs groups) {P Q : Place cs}
    (hcluster : P.cluster = Q.cluster) : P.equation.slab? d = Q.equation.slab? d := by
  rw [Equation.slab?, Equation.slab?, h.spaces P.nest P.nest_mem P.equation P.equation_mem,
    h.spaces Q.nest Q.nest_mem Q.equation Q.equation_mem, Place.nest_congr hcluster]

end

theorem dim_of_commonInterval {intervals : List Interval} {d : Dimension} {i : Interval}
    (hd : ∀ j ∈ intervals, j.dim = d) (h : commonInterval? intervals = .ok (some i)) :
    i.dim = d := by
  cases intervals with
  | nil => cases h
  | cons first rest =>
    obtain ⟨common, hfold, heq⟩ := returns_map (returns_ok h)
    cases heq
    exact returns_foldlM (P := fun _ (k : Interval) => k.dim = d) hfold
      (hd first List.mem_cons_self) fun _ _ _ _ _ hacc hnext =>
        (@IntervalGroup.combine_dim .intersection _ _ _ hnext).trans hacc

def CommonRange (c : Cluster) (d : Dimension) (lower upper : LinExpr) : Prop :=
  ∃ intervals, List.Forall₂ (fun e i => intervalOver d e = .ok i) c.equations intervals ∧
    commonInterval? intervals = .ok (some (.closed d lower upper))

/-- Siblings have a range in common, or stay as they are without any effect. -/
theorem decompose_cases {siblings parts : List Equation} {d : Dimension}
    (h : returns (decompose siblings d) parts) :
    (parts = siblings ∧ decompose siblings d = pure siblings) ∨
      ∃ intervals lower upper,
        List.Forall₂ (fun e i => intervalOver d e = .ok i) siblings intervals ∧
        commonInterval? intervals = .ok (some (.closed d lower upper)) := by
  obtain ⟨intervals, hover, hrest⟩ := Returns.of_bind h
  have hover : List.Forall₂ (fun e i => intervalOver d e = .ok i) siblings intervals :=
    (returns_mapM hover).imp fun e i hi => mapError_ok (returns_lift hi)
  obtain ⟨common, hcommon, hrest⟩ := Returns.of_bind hrest
  have hcommon : commonInterval? intervals = .ok common := mapError_ok (returns_lift hcommon)
  have hread : (siblings.mapM fun e => liftM (intervalOver d e) :
      StateT State (Except Failure) (List Interval)) = pure intervals :=
    mapM_eq_pure_of_forall₂ (hover.imp fun e i hi => by rw [hi]; rfl)
  match common with
  | none =>
    cases intervals with
    | nil =>
      obtain rfl := List.forall₂_nil_right_iff.mp hover
      exact .inl ⟨Returns.of_pure hrest, rfl⟩
    | cons i intervals =>
      obtain ⟨common, -, hnone⟩ := returns_map (returns_ok hcommon)
      cases hnone
  | some (.null dim) =>
    refine .inl ⟨Returns.of_pure hrest, ?_⟩
    rw [decompose, hread, pure_bind, hcommon]
    rfl
  | some (.closed dim lower upper) =>
    have hdims : ∀ j ∈ intervals, j.dim = d := by
      intro j hj
      obtain ⟨e, -, he⟩ := exists_of_forall₂ hover.flip hj
      exact dim_of_intervalOver he
    obtain rfl : dim = d := dim_of_commonInterval hdims hcommon
    exact .inr ⟨intervals, lower, upper, hover, hcommon⟩

/-- A cluster that does not stay as it is decomposes around the common range. -/
theorem decomposed_of_splitCluster {c : Cluster} {d : Dimension} {cs : List Cluster}
    (h : returns (splitCluster c) cs) (hd : c.dimensions.find? (diverges c) = some d) :
    cs = [c] ∨ ∃ lower upper, CommonRange c d lower upper ∧
      ∃ middle groups, Decomposed c d middle lower upper cs groups := by
  refine (splitCluster_cases h).imp_right ?_
  rintro ⟨d', parts, hd', hparts, hne, hclusters⟩
  cases hd.symm.trans hd'
  obtain ⟨hequations, hspaces⟩ := Cluster.clusterize_cases hclusters
  obtain ⟨intervals, lower, upper, hover, hcommon⟩ :=
    (decompose_cases hparts).resolve_left fun hsame => hne hsame.1
  obtain ⟨middle, groups, hflat, hspans, hcuts⟩ := decompose_cuts hover hcommon hparts
  refine ⟨lower, upper, ⟨intervals, hover, hcommon⟩, middle, groups,
    hequations.trans hflat, hspaces, hspans, fun n pieces hg => ?_, fun n e he => ?_⟩
  · obtain ⟨⟨e, whole⟩, hzip, hcut⟩ := exists_getElem?_of_forall₂ hcuts.flip hg
    obtain ⟨he, hwhole⟩ := List.getElem?_zip_eq_some.mp hzip
    obtain ⟨e', he', hover⟩ := exists_getElem?_of_forall₂ hover.flip hwhole
    cases he.symm.trans he'
    exact ⟨e, whole, he, find?_of_intervalOver hover,
      common_enclosed hcommon whole (List.mem_of_getElem? hwhole), hcut⟩
  · obtain ⟨whole, hwhole, -⟩ := exists_getElem?_of_forall₂ hover he
    obtain ⟨pieces, hg, -⟩ := exists_getElem?_of_forall₂ hcuts
      (List.getElem?_zip_eq_some.mpr ⟨he, hwhole⟩ : _ = some (e, whole))
    exact ⟨pieces, hg⟩

theorem splitCluster_of_apply {c : Cluster} {cs : List Cluster} {s s' : State}
    (h : (apply [c]).run s = .ok (cs, s')) : returns (splitCluster c) cs := by
  have h : returns (apply [c]) cs := ⟨s, s', h⟩
  obtain ⟨parts, hparts, rfl⟩ := returns_map h
  obtain _ | ⟨hsplit, ⟨⟩⟩ := returns_mapM hparts
  rwa [List.flatten_cons, List.flatten_nil, List.append_nil]

end Remainder
end LoopNest
