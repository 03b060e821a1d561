import LoopNest.Proofs.GroupOrder
import LoopNest.Proofs.PassMoves
import Mathlib.Data.List.DropRight

namespace LoopNest

namespace Interval

def headerSymbols (i : Interval) : List String :=
  let bounds := match i.extent with
    | .ok (some (lower, upper)) => lower.freeSymbols ++ upper.freeSymbols
    | _ => []
  bounds ++ i.dim.step.freeSymbols

def Mentions (i : Interval) (s : String) : Prop := s ∈ i.headerSymbols

instance (i : Interval) (s : String) : Decidable (i.Mentions s) :=
  inferInstanceAs (Decidable (s ∈ i.headerSymbols))

def Carries (m l : Interval) : Prop := m = l ∨ m.dim.parent? = some l.dim ∧ m.extent = l.extent

end Interval

namespace Cluster

def intervals (c : Cluster) : List Interval := c.ispace.intervals.intervals

@[simp] theorem intervals_withIntervals (c : Cluster) (g : IntervalGroup) :
    ({ c with ispace := c.ispace.withIntervals g } : Cluster).intervals = g.intervals := rfl

/-- No loop mentions its own index or the index of a loop inside it. -/
structure WellScoped (c : Cluster) : Prop where
  own : ∀ l ∈ c.intervals, ¬l.Mentions l.dim.name
  inner : c.intervals.Pairwise fun l l' => ¬l.Mentions l'.dim.name

instance (c : Cluster) : Decidable c.WellScoped :=
  decidable_of_iff ((∀ l ∈ c.intervals, ¬l.Mentions l.dim.name) ∧
      c.intervals.Pairwise fun l l' => ¬l.Mentions l'.dim.name)
    ⟨fun h => ⟨h.1, h.2⟩, fun h => ⟨h.own, h.inner⟩⟩

/-- A loop stood inside another one, whose index it mentions, and does so no longer: its header is
now that of a loop that does not stand inside the loop with this index. -/
def Overtaken (c c' : Cluster) : Prop :=
  ∃ l ∈ c.intervals, ∃ l' ∈ c.intervals, Precedes c.dimensions l'.dim l.dim ∧
    l.Mentions l'.dim.name ∧
      ∃ m ∈ c'.intervals, ∃ m' ∈ c'.intervals, m.Carries l ∧ m'.dim.name = l'.dim.name ∧
        m.Mentions l'.dim.name ∧ ¬Precedes c'.dimensions m'.dim m.dim

theorem mem_dimensions_of_mem {c : Cluster} {l : Interval} (h : l ∈ c.intervals) :
    l.dim ∈ c.dimensions := List.mem_map_of_mem h

theorem interval_mem {c : Cluster} {l : IterationInterval} (h : l ∈ c.loops) :
    l.interval ∈ c.intervals := by
  obtain ⟨i, hi, rfl⟩ := List.mem_map.mp h
  exact hi

theorem WellScoped.precedes {c : Cluster} (h : c.WellScoped) {l l' : Interval}
    (hl : l ∈ c.intervals) (hl' : l' ∈ c.intervals) (hm : l.Mentions l'.dim.name) :
    Precedes c.dimensions l'.dim l.dim := by
  have hne : l' ≠ l := by
    rintro rfl
    exact h.own _ hl hm
  rcases Precedes.total hl' hl hne with hp | hp
  · exact hp.map Interval.dim
  · exact absurd hm (List.pairwise_iff_forall_sublist.mp h.inner hp)

/-- Over distinct dimensions it is enough that every index mentioned is bound outside. -/
theorem wellScoped_of_precedes {c : Cluster} (hnd : c.dimensions.Nodup)
    (h : ∀ l ∈ c.intervals, ∀ l' ∈ c.intervals, l.Mentions l'.dim.name →
      Precedes c.dimensions l'.dim l.dim) : c.WellScoped := by
  refine ⟨fun l hl hm => (h l hl l hl hm).ne hnd rfl, ?_⟩
  refine List.pairwise_iff_forall_sublist.mpr fun {l l'} hp hm => ?_
  have hin : Precedes c.intervals l l' := hp
  exact (hin.map Interval.dim).asymm hnd (h l hin.left_mem l' hin.right_mem hm)

theorem WellScoped.not_overtaken {c c' : Cluster} (h : c'.WellScoped) : ¬c.Overtaken c' := by
  rintro ⟨l, -, l', -, -, -, m, hm, m', hm', -, hname, hmentions, hapart⟩
  rw [← hname] at hmentions
  exact hapart (h.precedes hm hm' hmentions)

def Rectangular (c : Cluster) : Prop :=
  ∀ l ∈ c.intervals, ∀ l' ∈ c.intervals, ¬l.Mentions l'.dim.name

theorem Rectangular.wellScoped {c : Cluster} (h : c.Rectangular) : c.WellScoped := by
  refine ⟨fun l hl => h l hl l hl, List.pairwise_iff_forall_sublist.mpr fun {l l'} hp => ?_⟩
  have hin : Precedes c.intervals l l' := hp
  exact h l hin.left_mem l' hin.right_mem

theorem Rectangular.not_overtaken {c : Cluster} (h : c.Rectangular) (c' : Cluster) :
    ¬c.Overtaken c' := by
  rintro ⟨l, hl, l', hl', -, hmentions, -⟩
  exact h l hl l' hl' hmentions

def PromotesFreely (c : Cluster) : Prop :=
  ∀ l ∈ c.intervals, ∀ l' ∈ c.intervals, c.properties.isParallelIndep l.dim →
    c.properties.isParallel l'.dim = false → l'.dim.sharesRoot l.dim = false →
      ¬l.Mentions l'.dim.name

end Cluster

namespace Interchange

/-- A moved loop changes places with the loops it passes; the others stay where they are. -/
theorem moveLoop_order {c c' : Cluster} {d : Dimension} {pos target : Nat} (hle : target ≤ pos)
    (hpos : c.ispace.intervals.indexOf? d = some pos) (h : moveLoop c pos target = .ok c') :
    ∃ x inner, x.dim = d ∧
      c.intervals = (c.intervals.take target ++ (c.intervals.take pos).drop target) ++ x :: inner ∧
      c'.intervals = c.intervals.take target ++ x :: ((c.intervals.take pos).drop target ++ inner) ∧
      c'.properties = c.properties ∧ c'.dimensions.Nodup := by
  obtain ⟨hlt, hd, -⟩ := List.findIdx?_eq_some_iff_getElem.mp hpos
  obtain ⟨group, hg, h⟩ := Returns.of_bind (returns_ok h)
  have h := Returns.of_pure h
  have htotal := IntervalGroup.build_total hg (List.mem_singleton.mpr rfl)
  have hnd := IntervalGroup.build_dimensions_nodup hg
  rw [h]
  refine ⟨_, c.intervals.drop (pos + 1), of_decide_eq_true hd, ?_, ?_, rfl, hnd⟩
  · have hsplit : c.intervals = c.intervals.take pos ++ c.intervals.drop pos :=
      (List.take_append_drop pos _).symm
    have htake : c.intervals.take target ++ (c.intervals.take pos).drop target =
        c.intervals.take pos := by
      have hmin := List.take_append_drop target (c.intervals.take pos)
      rwa [List.take_take, Nat.min_eq_left hle] at hmin
    rw [htake]
    exact hsplit.trans (congrArg _ (List.drop_eq_getElem_cons hlt))
  · have hmoved : group.intervals = _ := htotal
    rw [List.getElem?_eq_getElem hlt] at hmoved
    rw [Cluster.intervals_withIntervals, hmoved]
    simp only [Option.toList_some, List.append_assoc, List.singleton_append]
    rfl

/-- The loops just outside a promoted one that it passes are neither parallel nor of its family; the
next one beyond them is, unless it is one of the outermost that nothing passes. -/
theorem hops_split (c : Cluster) (d : Dimension) (floor pos : Nat) :
    ∃ front passed, c.dimensions.take pos = front ++ passed ∧
      passed.length = hops c d floor pos ∧ (passed ≠ [] → floor ≤ front.length) ∧
      (∀ e ∈ passed, c.properties.isParallel e = false ∧ e.sharesRoot d = false) ∧
      ∀ e ∈ (front.drop floor).getLast?,
        c.properties.isParallel e = true ∨ e.sharesRoot d = true := by
  rw [hops]
  generalize c.dimensions.take pos = outer
  generalize hp : (fun outer => !c.properties.isParallel outer && !outer.sharesRoot d) = free
  have hfront : (outer.take floor ++ (outer.drop floor).rdropWhile free).drop floor =
      (outer.drop floor).rdropWhile free := by
    rcases Nat.le_total floor outer.length with hle | hle
    · exact List.drop_left' (List.length_take_of_le hle)
    · rw [List.drop_eq_nil_of_le hle]
      simp [List.take_of_length_le hle, hle]
  refine ⟨outer.take floor ++ (outer.drop floor).rdropWhile free,
    (outer.drop floor).rtakeWhile free,
    ?_, List.length_reverse, fun hne => ?_, fun e he => ?_, fun e he => ?_⟩
  · rw [List.append_assoc, List.rdropWhile_append_rtakeWhile, List.take_append_drop]
  · have hlong : floor < outer.length := by
      by_contra hshort
      rw [List.drop_eq_nil_of_le (Nat.not_lt.mp hshort)] at hne
      exact hne rfl
    rw [List.length_append, List.length_take_of_le hlong.le]
    exact Nat.le_add_right _ _
  · have hfree := List.mem_rtakeWhile_imp he
    rw [← hp] at hfree
    simpa using hfree
  · rw [hfront] at he
    obtain ⟨hne, hlast⟩ := List.mem_getLast?_eq_getLast he
    have hstops := List.rdropWhile_last_not free (outer.drop floor) hne
    rw [← hlast, ← hp] at hstops
    simpa [or_iff_not_imp_left] using hstops

theorem passed_of_hops {c : Cluster} {d : Dimension} {floor pos : Nat}
    (hpos : pos ≤ c.dimensions.length) :
    ∀ e ∈ (c.dimensions.take pos).drop (pos - hops c d floor pos),
      c.properties.isParallel e = false ∧ e.sharesRoot d = false := by
  obtain ⟨front, passed, hsplit, hlen, -, hfree, -⟩ := hops_split c d floor pos
  have hfront : front.length = pos - hops c d floor pos := by
    rw [← hlen, ← List.length_take_of_le hpos, hsplit, List.length_append, Nat.add_sub_cancel]
  rwa [hsplit, List.drop_left' hfront]

/-- Two loops only change places if the inner one is moved and passes the outer one. -/
theorem swapped_cases {outer passed inner : List Dimension} {x a b : Dimension}
    (hnd : (outer ++ x :: (passed ++ inner)).Nodup)
    (hab : Precedes ((outer ++ passed) ++ x :: inner) a b)
    (hba : Precedes (outer ++ x :: (passed ++ inner)) b a) : b = x ∧ a ∈ passed := by
  have hrest := (List.nodup_cons.mp (List.nodup_middle.mp hnd)).2
  have hapart : ∀ e ∈ outer, e ∉ passed ++ inner :=
    fun e ho hi => (List.nodup_append.mp hrest).2.2 e ho e hi rfl
  have hnd' : ((outer ++ passed) ++ x :: inner).Nodup := by
    rw [List.nodup_middle, List.append_assoc]
    exact List.nodup_middle.mp hnd
  by_cases ha : a = x
  · subst ha
    exact absurd (List.mem_append_right _ (hab.mem_after hnd')) (hapart b (hba.mem_before hnd))
  · by_cases hb : b = x
    · subst hb
      refine ⟨rfl, (List.mem_append.mp (hab.mem_before hnd')).resolve_left fun ho => ?_⟩
      exact hapart a ho (hba.mem_after hnd)
    · -- without the moved loop both orders are the same
      have hsame : ((outer ++ passed) ++ x :: inner).filter (· ≠ x) =
          (outer ++ x :: (passed ++ inner)).filter (· ≠ x) := by simp
      have hab' : Precedes (((outer ++ passed) ++ x :: inner).filter (· ≠ x)) a b :=
        hab.filter (by simpa using ha) (by simpa using hb)
      have hba' : Precedes ((outer ++ x :: (passed ++ inner)).filter (· ≠ x)) b a :=
        hba.filter (by simpa using hb) (by simpa using ha)
      rw [hsame] at hab'
      exact absurd hba' (hab'.asymm (hnd.filter _))

/-- What any number of promotions makes of a cluster: its loops in another order, in which a loop
has come to stand outside another one only if it may be promoted past it. -/
structure Promoted (c c' : Cluster) : Prop where
  properties : c'.properties = c.properties
  perm : c'.intervals.Perm c.intervals
  distinct : c' = c ∨ c'.dimensions.Nodup
  swapped : c.dimensions.Nodup → ∀ a b, Precedes c.dimensions a b → Precedes c'.dimensions b a →
    c.properties.isParallelIndep b ∧ c.properties.isParallel a = false ∧ a.sharesRoot b = false

theorem Promoted.refl (c : Cluster) : Promoted c c :=
  ⟨rfl, .refl _, .inl rfl, fun hnd _ _ hab hba => absurd hba (hab.asymm hnd)⟩

theorem Promoted.step {b c c' : Cluster} {outer : List IterationInterval} {floor : Nat}
    (hb : Promoted b c) (h : promote? c outer floor = .ok (some c')) : Promoted b c' := by
  obtain ⟨d, pos, hindep, hpos, -, hm⟩ := promote?_cases h
  obtain ⟨x, inner, hx, hc, hc', hprop, hnd⟩ := moveLoop_order (Nat.sub_le _ _) hpos hm
  have hlt : pos < c.intervals.length := (List.findIdx?_eq_some_iff_getElem.mp hpos).1
  have hdims : c.dimensions = c.intervals.map Interval.dim := rfl
  have hdims' : c'.dimensions = c'.intervals.map Interval.dim := rfl
  have hpassed := @passed_of_hops c d floor pos (by
    rw [hdims, List.length_map]
    exact Nat.le_of_lt hlt)
  rw [hdims, ← List.map_take, ← List.map_drop] at hpassed
  generalize (c.intervals.take pos).drop (pos - hops c d floor pos) = passed at hc hc' hpassed
  generalize c.intervals.take (pos - hops c d floor pos) = out at hc hc'
  have hperm : c'.intervals.Perm c.intervals := by
    rw [hc', hc]
    exact List.perm_middle.trans (.trans (by rw [List.append_assoc]) List.perm_middle.symm)
  refine ⟨hprop.trans hb.properties, hperm.trans hb.perm, .inr hnd, fun hbnd e f hef hfe => ?_⟩
  have hbperm : c.dimensions.Perm b.dimensions := hb.perm.map Interval.dim
  have hne : e ≠ f := hef.ne hbnd
  rcases Precedes.total (hbperm.mem_iff.mpr hef.left_mem) (hbperm.mem_iff.mpr hef.right_mem) hne
    with h | h
  · rw [hdims, hc] at h
    rw [hdims', hc'] at hfe hnd
    simp only [List.map_append, List.map_cons] at h hfe hnd
    obtain ⟨rfl, hin⟩ := swapped_cases hnd h hfe
    rw [hx, ← hb.properties]
    exact ⟨hindep, hpassed e hin⟩
  · exact hb.swapped hbnd e f hef h

/-- Promotion keeps a cluster well scoped exactly if no loop is moved out of one whose index its
header mentions. -/
theorem Promoted.wellScoped_iff {c c' : Cluster} (h : Promoted c c') (hc : c.WellScoped) :
    c'.WellScoped ↔ ¬c.Overtaken c' := by
  refine ⟨Cluster.WellScoped.not_overtaken, fun hfree => ?_⟩
  rcases h.distinct with rfl | hnd
  · exact hc
  · refine Cluster.wellScoped_of_precedes hnd fun m hm m' hm' hmentions => ?_
    by_contra hapart
    have hl := h.perm.mem_iff.mp hm
    have hl' := h.perm.mem_iff.mp hm'
    exact hfree ⟨m, hl, m', hl', hc.precedes hl hl' hmentions, hmentions, m, hm, m', hm', .inl rfl,
      rfl, hmentions, hapart⟩

theorem Promoted.wellScoped {c c' : Cluster} (h : Promoted c c') (hc : c.WellScoped)
    (hnd : c.dimensions.Nodup) (hfree : c.PromotesFreely) : c'.WellScoped := by
  have hperm : c'.dimensions.Perm c.dimensions := h.perm.map Interval.dim
  refine Cluster.wellScoped_of_precedes (hperm.nodup_iff.mpr hnd) fun m hm m' hm' hmentions => ?_
  have hl := h.perm.mem_iff.mp hm
  have hl' := h.perm.mem_iff.mp hm'
  have hinner := hc.precedes hl hl' hmentions
  rcases Precedes.total (Cluster.mem_dimensions_of_mem hm') (Cluster.mem_dimensions_of_mem hm)
    (hinner.ne hnd) with hkept | hswapped
  · exact hkept
  · obtain ⟨hindep, hpar, hroot⟩ := h.swapped hnd _ _ hinner hswapped
    exact absurd hmentions (hfree m hl m' hl' hindep hpar hroot)

theorem apply_promoted (h : returns (apply clusters) out) :
    List.Forall₂ Promoted clusters out := by
  have hsteps := (apply_promotions h).pointwise
    (S := fun c c' => ∃ outer floor, promote? c outer floor = .ok (some c'))
    fun as bs ⟨h⟩ => ⟨_, _, rfl, rfl, _, _, h⟩
  refine hsteps.imp fun c c' hc => ?_
  induction hc with
  | refl => exact .refl c
  | tail _ hstep ih =>
    obtain ⟨outer, floor, hstep⟩ := hstep
    exact ih.step hstep

/-- Interchange keeps the nests well scoped in which no loop is held back by what it mentions. -/
theorem apply_wellScoped (h : returns (apply clusters) out)
    (hc : ∀ c ∈ clusters, c.WellScoped ∧ c.dimensions.Nodup ∧ c.PromotesFreely) :
    ∀ c ∈ out, c.WellScoped := by
  intro c' hc'
  obtain ⟨c, hin, hp⟩ := exists_of_forall₂ (apply_promoted h).flip hc'
  obtain ⟨hscoped, hnd, hfree⟩ := hc c hin
  exact hp.wellScoped hscoped hnd hfree

end Interchange
end LoopNest
