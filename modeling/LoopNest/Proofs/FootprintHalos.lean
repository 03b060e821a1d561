import LoopNest.Proofs.RemainderPlaces

namespace LoopNest

/-- Where all values of a map are replaced, a key finds what its value became. -/
theorem SortedMap.mapValuesM_find? {κ ν ω ε : Type} [DecidableEq κ] [Ord κ] [Std.TransOrd κ]
    [Std.LawfulEqOrd κ] {m : SortedMap κ ν} {f : ν → Except ε ω} {m' : SortedMap κ ω}
    (h : m.mapValuesM f = .ok m') (k : κ) :
    Option.Rel (fun v w => f v = .ok w) (m.find? k) (m'.find? k) := by
  obtain ⟨entries, hentries, rfl⟩ := returns_map (returns_ok h)
  have hall : List.Forall₂ (fun e e' => e'.1 = e.1 ∧ f e.2 = .ok e'.2) m.entries entries := by
    refine (returns_mapM hentries).imp fun e e' he => ?_
    obtain ⟨w, hw, rfl⟩ := returns_map he
    exact ⟨rfl, hw⟩
  have hkeys : entries.map Prod.fst = m.entries.map Prod.fst := by
    rw [← List.forall₂_eq_eq_eq, List.forall₂_map_left_iff, List.forall₂_map_right_iff]
    exact hall.flip.imp fun _ _ he => he.1
  rw [ofList, find?_foldl_insert (hkeys ▸ m.keys_nodup) Prod.snd, find?_empty, Option.or_none,
    find?_entries]
  clear h hentries hkeys
  generalize m.entries = l at hall
  induction hall with
  | nil => exact .none
  | @cons e e' _ _ he _ ih =>
    by_cases hk : k = e.1
    · simpa [List.find?_cons, hk, he.1] using Option.Rel.some he.2
    · simpa [List.find?_cons, hk, he.1] using ih

namespace Interval

/-- How far a footprint reaches beyond a loop, before its first point and behind its last one. -/
def halo? (v : Valuation) (loop footprint : Interval) : Option (Int × Int) :=
  match loop, footprint with
  | closed d l u, closed d' l' u' =>
    some ((d.endpoint v .lower + l.denote v) - (d'.endpoint v .lower + l'.denote v),
      (d'.endpoint v .upper + u'.denote v) - (d.endpoint v .upper + u.denote v))
  | _, _ => none

structure CarriedTo (whole slab footprint moved : Interval) : Prop where
  dim : moved.dim = slab.dim
  halo : ∀ v, slab.halo? v moved = whole.halo? v footprint

/-- A footprint that is shifted by what the bounds of its loop and of the slab differ. -/
theorem carriedTo_translate {d slabDim : Dimension} {l u l' u' lower upper : LinExpr}
    {footprint moved : Interval} (hdim : footprint.dim = d) (hlower : l'.sub l = .ok lower)
    (hupper : u'.sub u = .ok upper)
    (h : (footprint.switch slabDim).translate lower upper = .ok moved) :
    CarriedTo (.closed d l u) (.closed slabDim l' u') footprint moved := by
  cases footprint with
  | null d' =>
    cases h
    exact ⟨rfl, fun _ => rfl⟩
  | closed d' low high =>
    obtain rfl : d' = d := hdim
    obtain ⟨low', hlow, h⟩ := Returns.of_bind (returns_ok h)
    obtain ⟨high', hhigh, h⟩ := Returns.of_bind h
    rw [Returns.of_pure h]
    refine ⟨rfl, fun v => ?_⟩
    rw [halo?, halo?, LinExpr.add_denote hlow, LinExpr.add_denote hhigh,
      LinExpr.sub_denote hlower, LinExpr.sub_denote hupper]
    congr 2 <;> omega

end Interval

namespace IntervalGroup

/-- Behind an interval over the dimension or over the slab none is over the dimension. -/
def Exposes (g : IntervalGroup) (d slab : Dimension) : Prop :=
  g.dimensions.Pairwise fun outer inner => inner = d → outer ≠ d ∧ outer ≠ slab

theorem exposes_of_nodup {g : IntervalGroup} {d slab : Dimension} (hnd : g.dimensions.Nodup)
    (hnew : slab ∉ g.dimensions) : g.Exposes d slab := by
  refine hnd.imp_of_mem ?_
  rintro outer inner houter - hne rfl
  exact ⟨hne, fun h => hnew (h ▸ houter)⟩

/-- The footprints over the dimension of a loop are carried to a slab, all others stay. -/
def Carries (whole slab : Interval) (g g' : IntervalGroup) : Prop :=
  List.Forall₂ (fun i j => if i.dim = whole.dim then Interval.CarriedTo whole slab i j else j = i)
    g.intervals g'.intervals

theorem forall₂_kept {whole slab : Interval} {l : List Interval} (h : ∀ i ∈ l, i.dim ≠ whole.dim) :
    List.Forall₂ (fun i j => if i.dim = whole.dim then Interval.CarriedTo whole slab i j else j = i)
      l l :=
  List.forall₂_same.mpr fun i hi => by rw [if_neg (h i hi)]

theorem map_switch_eq_self {d slab : Dimension} {l : List Interval} (h : ∀ i ∈ l, i.dim ≠ d) :
    (l.map fun i => if i.dim = d then i.switch slab else i) = l := by
  rw [List.map_congr_left fun i hi => if_neg (h i hi), List.map_id']

/-- The moved footprint takes the place of the first interval over the dimension or the slab. Behind
it footprints over the dimension are renamed but not shifted. -/
def Replaces (whole slab : Interval) (g g' : IntervalGroup) : Prop :=
  ∃ before target after footprint moved, g.intervals = before ++ target :: after ∧
    (∀ i ∈ before, i.dim ≠ whole.dim ∧ i.dim ≠ slab.dim) ∧
    (target.dim = whole.dim ∨ target.dim = slab.dim) ∧
    g.find? whole.dim = some footprint ∧ Interval.CarriedTo whole slab footprint moved ∧
    g'.intervals = before ++ moved ::
      after.map fun i => if i.dim = whole.dim then i.switch slab.dim else i

theorem replace_cases {g g' : IntervalGroup} {i : Interval} (h : g.replace i = .ok g') :
    ∃ before target after, g.intervals = before ++ target :: after ∧
      (∀ j ∈ before, j.dim ≠ i.dim) ∧ target.dim = i.dim ∧
      g'.intervals = before ++ i :: after := by
  unfold replace at h
  split at h
  · rename_i k hk
    cases h
    obtain ⟨hlt, hdim, hbefore⟩ := List.findIdx?_eq_some_iff_getElem.mp hk
    refine ⟨g.intervals.take k, g.intervals[k], g.intervals.drop (k + 1), ?_, ?_,
      of_decide_eq_true hdim, List.set_eq_take_cons_drop i hlt⟩
    · rw [List.getElem_cons_drop, List.take_append_drop]
    · intro j hj
      obtain ⟨n, hn, rfl⟩ := List.mem_take_iff_getElem.mp hj
      simpa using hbefore n (by omega)
  · cases h

/-- Unless something over the slab stands before it, the footprint itself is what is replaced. -/
theorem Replaces.carries {whole slab : Interval} {g g' : IntervalGroup}
    (h : Replaces whole slab g g') (hexposes : g.Exposes whole.dim slab.dim) :
    Carries whole slab g g' := by
  obtain ⟨before, target, after, footprint, moved, hg, hbefore, htarget, hfind, hmoved, hg'⟩ := h
  have hfootprint := dim_of_find? hfind
  have hin : footprint ∈ before ++ target :: after := hg ▸ List.mem_of_find?_eq_some hfind
  rw [Exposes, dimensions, hg, List.map_append, List.map_cons, List.pairwise_append,
    List.pairwise_cons] at hexposes
  obtain ⟨-, ⟨hafter, -⟩, -⟩ := hexposes
  -- behind the target nothing is over the dimension, so the target is the footprint
  have hbehind : ∀ i ∈ after, i.dim ≠ whole.dim := by
    intro i hi heq
    obtain ⟨hwhole, hslab⟩ := hafter i.dim (List.mem_map_of_mem hi) heq
    exact htarget.elim hwhole hslab
  have hsame : footprint = target := by
    rcases List.mem_append.mp hin with hin | hin
    · exact absurd hfootprint (hbefore _ hin).1
    · rcases List.mem_cons.mp hin with hin | hin
      · exact hin
      · exact absurd hfootprint (hbehind _ hin)
  rw [Carries, hg, hg', map_switch_eq_self hbehind]
  refine List.rel_append (forall₂_kept fun i hi => (hbefore i hi).1)
    (.cons ?_ (forall₂_kept hbehind))
  rw [← hsame, if_pos hfootprint]
  exact hmoved

structure Moves (whole slab : Interval) (g g' : IntervalGroup) : Prop where
  kept : whole.dim ∉ g.dimensions → g' = g
  carries : g.Exposes whole.dim slab.dim → Carries whole slab g g'
  replaces : whole.dim ∈ g.dimensions → Replaces whole slab g g'

theorem remapGroup_moves {whole slab : Interval} {lower upper : LinExpr} {g g' : IntervalGroup}
    (hcarry : ∀ footprint moved, footprint.dim = whole.dim →
      (footprint.switch slab.dim).translate lower upper = .ok moved →
      Interval.CarriedTo whole slab footprint moved)
    (h : DataSpace.remapGroup whole.dim slab.dim lower upper g = .ok g') :
    Moves whole slab g g' := by
  unfold DataSpace.remapGroup at h
  split at h
  · rename_i footprint hfind
    obtain ⟨moved, hmoved, h⟩ := Returns.of_bind (returns_ok h)
    have hfootprint := dim_of_find? hfind
    have hcarried := hcarry footprint moved hfootprint hmoved
    obtain ⟨before', target', after', hswitch, hbefore, htarget, hg'⟩ :=
      replace_cases (mapError_ok h)
    obtain ⟨before, rest, hg, rfl, hrest⟩ := List.map_eq_append_iff.mp hswitch
    obtain ⟨target, after, rfl, rfl, rfl⟩ := List.map_eq_cons_iff.mp hrest
    rw [hcarried.dim] at hbefore htarget
    have hfree : ∀ i ∈ before, i.dim ≠ whole.dim ∧ i.dim ≠ slab.dim := by
      intro i hi
      have hne := hbefore _ (List.mem_map_of_mem hi)
      split at hne
      · rw [Interval.switch_dim] at hne
        exact absurd rfl hne
      · exact ⟨‹_›, hne⟩
    have hfirst : target.dim = whole.dim ∨ target.dim = slab.dim := by
      split at htarget
      · exact .inl ‹_›
      · exact .inr htarget
    rw [map_switch_eq_self fun i hi => (hfree i hi).1] at hg'
    have hreplaces : Replaces whole slab g g' :=
      ⟨before, target, after, footprint, moved, hg, hfree, hfirst, hfind, hcarried, hg'⟩
    have hin : whole.dim ∈ g.dimensions :=
      List.mem_map.mpr ⟨footprint, List.mem_of_find?_eq_some hfind, hfootprint⟩
    exact ⟨fun hnot => absurd hin hnot, hreplaces.carries, fun _ => hreplaces⟩
  · rename_i hnone
    cases h
    have hnot : ∀ i ∈ g.intervals, i.dim ≠ whole.dim := by
      simpa using List.find?_eq_none.mp hnone
    refine ⟨fun _ => rfl, fun _ => ?_, fun hin => ?_⟩
    · exact forall₂_kept hnot
    · obtain ⟨i, hi, hdim⟩ := List.mem_map.mp hin
      exact absurd hdim (hnot i hi)

end IntervalGroup

structure DataSpace.Moves (whole slab : Interval) (s s' : DataSpace) : Prop where
  intervals : s.intervals.Moves whole slab s'.intervals
  parts : ∀ array, Option.Rel (IntervalGroup.Moves whole slab) (s.parts.find? array)
    (s'.parts.find? array)

namespace Remainder

theorem retarget_moves {e part : Equation} {d : Dimension} {whole slab : Interval}
    (hwhole : whole.dim = d) (hclosed : whole.isNull = false) (hslab : slab.isNull = false)
    (h : retarget e whole d slab = .ok part) : e.dspace.Moves whole slab part.dspace := by
  subst hwhole
  obtain ⟨lower, upper, hshift, -, hremap, -, -⟩ := retarget_cases h
  obtain ⟨intervals, hintervals, hremap⟩ := Returns.of_bind (returns_ok hremap)
  obtain ⟨parts, hparts, hremap⟩ := Returns.of_bind hremap
  have hcarry : ∀ footprint moved, footprint.dim = whole.dim →
      (footprint.switch slab.dim).translate lower upper = .ok moved →
      Interval.CarriedTo whole slab footprint moved := by
    intro footprint moved hdim hmoved
    cases whole with
    | null _ => cases hclosed
    | closed d l u =>
      cases slab with
      | null _ => cases hslab
      | closed slabDim l' u' =>
        obtain ⟨hlower, hupper⟩ := hshift l u l' u' rfl rfl
        exact Interval.carriedTo_translate hdim hlower hupper hmoved
  have hspace := Returns.of_pure hremap
  rw [hspace]
  refine ⟨IntervalGroup.remapGroup_moves hcarry hintervals, fun array => ?_⟩
  have hfound := SortedMap.mapValuesM_find? hparts array
  generalize e.dspace.parts.find? array = before at hfound ⊢
  generalize parts.find? array = after at hfound ⊢
  cases hfound with
  | none => exact .none
  | some hg => exact .some (IntervalGroup.remapGroup_moves hcarry hg)

/-- A group with one footprint for each dimension exposes them, if none is over a slab. -/
theorem Cut.exposes {d middle : Dimension} {lower upper : LinExpr} {e : Equation} {whole : Interval}
    {pieces : List (Interval × Equation)} (h : Cut d middle lower upper e whole pieces)
    (hs : Spans d middle lower upper) {g : IntervalGroup} (hnd : g.dimensions.Nodup)
    (hnew : ∀ name region, .sub name d region ∉ g.dimensions) :
    ∀ q ∈ pieces, g.Exposes d q.1.dim := by
  intro q hq
  obtain ⟨name, region, hslab⟩ := h.slab hs hq
  exact IntervalGroup.exposes_of_nodup hnd (hslab ▸ hnew name region)

/-- Footprints keep their halo when equations are split. Nothing happens to siblings without a
common range; else each becomes a left, a middle and a right part, as far as there is something on
that side. In every group of footprints, over all arrays or of one of them, a part has the
footprints over the dimension on its slab, where they reach as far beyond its first and its last
point as they reached beyond those of the sibling, and all others as they were. Where something over
the slab stands before a footprint, that is replaced in its stead. -/
theorem decompose_moves_footprints {siblings parts : List Equation} {d : Dimension} {s s' : State}
    (h : (decompose siblings d).run s = .ok (parts, s')) :
    (parts = siblings ∧ s' = s) ∨ ∃ intervals lower upper middle,
      ∃ groups : List (List (Interval × Equation)),
      siblings.mapM (intervalOver d) = .ok intervals ∧ parts = groups.flatten.map Prod.snd ∧
      Spans d middle lower upper ∧
      List.Forall₂ (fun sibling pieces => Cut d middle lower upper sibling.1 sibling.2 pieces ∧
        ∀ piece ∈ pieces, sibling.1.dspace.Moves sibling.2 piece.1 piece.2.dspace)
        (siblings.zip intervals) groups := by
  have hparts : returns (decompose siblings d) parts := ⟨s, s', h⟩
  rcases decompose_cases hparts with ⟨-, hpure⟩ | ⟨intervals, lower, upper, hover, hcommon⟩
  · rw [hpure] at h
    exact .inl (run_pure h)
  obtain ⟨middle, groups, hflat, hspans, hgroups⟩ := decompose_retargets hover hcommon hparts
  refine .inr ⟨intervals, lower, upper, middle, groups, mapM_eq_pure_of_forall₂ hover, hflat,
    hspans, ?_⟩
  refine List.forall₂_iff_zip.mpr ⟨hgroups.length_eq, fun hin => ?_⟩
  have hcut := (List.forall₂_iff_zip.mp hgroups).2 hin
  have hinterval := (List.of_mem_zip (List.of_mem_zip hin).1).2
  obtain ⟨e, -, he⟩ := exists_of_forall₂ hover.flip hinterval
  obtain ⟨l, u, hwhole⟩ := (common_enclosed hcommon _ hinterval).closed
  refine ⟨hcut.cut, fun piece hpiece => ?_⟩
  obtain ⟨hslab, hretarget⟩ := hcut.retargeted piece hpiece
  exact retarget_moves (dim_of_intervalOver he) (by rw [hwhole]; rfl) hslab hretarget

def haloed : List Equation :=
  let row (array : String) (lower upper low high : Int64) : Equation :=
    let footprint : IntervalGroup := .ofIntervals [.closed (.basic "x") (.int low) (.int high)]
    ⟨.around "x" array 0, .int 1,
      .ofIntervals (.ofIntervals [.closed (.basic "x") (.int lower) (.int upper)]),
      ⟨footprint, .singleton array footprint⟩⟩
  [row "u" (-2) 1 (-3) 2, row "w" (-1) 2 (-2) 3]

theorem decompose_moves_footprints_haloed :
    ∃ parts s', (decompose haloed (.basic "x")).run .empty = .ok (parts, s') ∧
      parts.map (fun e => e.ispace.intervals.text ++ " in " ++ e.dspace.intervals.text) =
        ["[x_lr0[-2, -2]] in [x_lr0[-3, -1]]", "[x_mr0[0, 0]] in [x_mr0[-1, 1]]",
          "[x_mr0[0, 0]] in [x_mr0[-1, 1]]", "[x_rr0[2, 2]] in [x_rr0[1, 3]]"] ∧
      ∃ groups : List (List (Interval × Equation)), parts = groups.flatten.map Prod.snd ∧
        List.Forall₂ (fun sibling pieces => ∀ piece ∈ pieces, IntervalGroup.Carries
            sibling.2 piece.1 sibling.1.dspace.intervals piece.2.dspace.intervals)
          (haloed.zip [.closed (.basic "x") (.int (-2)) (.int 1),
            .closed (.basic "x") (.int (-1)) (.int 2)]) groups := by
  have hread : ((decompose haloed (.basic "x")).run .empty).toOption.map
      (fun r => r.1.map fun e => e.ispace.intervals.text ++ " in " ++ e.dspace.intervals.text) =
        some ["[x_lr0[-2, -2]] in [x_lr0[-3, -1]]", "[x_mr0[0, 0]] in [x_mr0[-1, 1]]",
          "[x_mr0[0, 0]] in [x_mr0[-1, 1]]", "[x_rr0[2, 2]] in [x_rr0[1, 3]]"] := by
    decide +kernel
  obtain ⟨⟨parts, s'⟩, hrun, hparts⟩ := exists_of_toOption hread
  refine ⟨parts, s', hrun, hparts, ?_⟩
  have hover : haloed.mapM (intervalOver (.basic "x")) = .ok
      [.closed (.basic "x") (.int (-2)) (.int 1), .closed (.basic "x") (.int (-1)) (.int 2)] := rfl
  rcases decompose_moves_footprints hrun with ⟨rfl, -⟩ | ⟨intervals, lower, upper, middle, groups,
    hintervals, hflat, hspans, hgroups⟩
  · have hlength : haloed.length = 4 := by simpa using congrArg List.length hparts
    cases hlength
  · cases hintervals.symm.trans hover
    have hnew : ∀ name region, Dimension.sub name (.basic "x") region ∉ [Dimension.basic "x"] := by
      intro name region hin
      cases List.mem_singleton.mp hin
    have hnd : [Dimension.basic "x"].Nodup := List.nodup_singleton _
    obtain _ | ⟨⟨hcut, hfirst⟩, _ | ⟨⟨hcut', hsecond⟩, ⟨⟩⟩⟩ := hgroups
    refine ⟨_, hflat, .cons (fun piece hpiece => ?_) (.cons (fun piece hpiece => ?_) .nil)⟩
    · refine (hfirst piece hpiece).intervals.carries (hcut.exposes hspans ?_ ?_ piece hpiece)
      · exact hnd
      · exact hnew
    · refine (hsecond piece hpiece).intervals.carries (hcut'.exposes hspans ?_ ?_ piece hpiece)
      · exact hnd
      · exact hnew

def wholeMiddle : Dimension := .sub "x_mr0" (.basic "x") (.middle .zero .zero)

/-- `u[x] = 1` over `x[0, 1]` with footprints over `x_mr0` and over `x`, and `w[x] = 1` over
`x[0, 0]`. -/
def shadowed : List Equation :=
  let row (array : String) (upper : Int64) (footprints : List Interval) : Equation :=
    ⟨.around "x" array 0, .int 1,
      .ofIntervals (.ofIntervals [.closed (.basic "x") .zero (.int upper)]),
      ⟨.ofIntervals footprints, .empty⟩⟩
  [row "u" 1 [.closed wholeMiddle .zero .zero, .closed (.basic "x") (.int (-1)) (.int 2)],
    row "w" 0 []]

/-- The middle part of `u[x] = 1` has the moved footprint in the place of the one over `x_mr0`, and
that over `x` is renamed only. -/
theorem decompose_replaces_shadowing :
    (∀ e ∈ shadowed, e.Settled) ∧
    ∃ e part rest s', shadowed.head? = some e ∧
      (decompose shadowed (.basic "x")).run .empty = .ok (part :: rest, s') ∧
      e.ispace.intervals.find? (.basic "x") = some (.closed (.basic "x") .zero (.int 1)) ∧
      part.ispace.intervals.find? wholeMiddle = some (.closed wholeMiddle .zero .zero) ∧
      part.dspace.intervals.intervals = [.closed wholeMiddle (.int (-1)) (.int 1),
        .closed wholeMiddle (.int (-1)) (.int 2)] ∧
      ¬IntervalGroup.Carries (.closed (.basic "x") .zero (.int 1)) (.closed wholeMiddle .zero .zero)
        e.dspace.intervals part.dspace.intervals := by
  have hread : ((decompose shadowed (.basic "x")).run .empty).toOption.map
      (fun r => r.1.head?.map fun e =>
        (e.ispace.intervals.find? wholeMiddle, e.dspace.intervals.intervals)) =
        some (some (some (.closed wholeMiddle .zero .zero),
          [.closed wholeMiddle (.int (-1)) (.int 1),
            .closed wholeMiddle (.int (-1)) (.int 2)])) := by
    decide +kernel
  obtain ⟨⟨parts, s'⟩, hrun, hhead⟩ := exists_of_toOption hread
  obtain ⟨part, hpart, hread⟩ := Option.map_eq_some_iff.mp hhead
  obtain ⟨hspace, hfootprints⟩ := Prod.mk.inj hread
  obtain ⟨rest, rfl⟩ := List.head?_eq_some_iff.mp hpart
  have hsettled : ∀ e ∈ shadowed, e.Settled := by
    intro e he
    rcases List.mem_pair.mp he with rfl | rfl <;> exact ⟨rfl, rfl, List.forall_mem_nil _⟩
  refine ⟨hsettled, _, part, rest, s', rfl, hrun, rfl, hspace, hfootprints, ?_⟩
  intro hcarries
  rw [IntervalGroup.Carries, hfootprints] at hcarries
  obtain _ | ⟨hshadow, -⟩ := hcarries
  rw [if_neg (by decide)] at hshadow
  exact absurd hshadow (by decide)

end Remainder
end LoopNest
