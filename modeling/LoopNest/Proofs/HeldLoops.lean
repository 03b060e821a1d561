import LoopNest.Proofs.InterchangedLoops

namespace LoopNest

/-- If the second loop has no dependence component, it stays directly inside the first one: that
one is parallel or of its family. -/
def Properties.Holds (p : Properties) (e d : Dimension) : Prop :=
  p.isParallelIndep d → p.isParallel e = true ∨ e.sharesRoot d = true

theorem Properties.isParallel_of_isParallelIndep {p : Properties} (h : p.isParallelIndep d) :
    p.isParallel d = true := by
  rw [isParallelIndep, has, SortedSet.contains_iff] at h
  exact List.any_eq_true.mpr ⟨.parallelIndep, h, rfl⟩

/-- Deeper than the given number of outer loops, every loop without dependence components is
directly inside a parallel loop or one of its family, unless it comes first. -/
def Cluster.HeldBelow (c : Cluster) (depth : Nat) : Prop :=
  (c.dimensions.drop depth).IsChain c.properties.Holds

theorem Cluster.HeldBelow.mono {c : Cluster} (h : c.HeldBelow depth) (hle : depth ≤ n) :
    c.HeldBelow n := by
  have hdrop := List.IsChain.drop h (n - depth)
  rwa [List.drop_drop, Nat.add_sub_cancel' hle] at hdrop

namespace Interchange

theorem indexOf?_of_nodup {c : Cluster} {before inner : List Dimension} {d : Dimension}
    (hnd : c.dimensions.Nodup) (hdims : c.dimensions = before ++ d :: inner) :
    c.ispace.intervals.indexOf? d = some before.length := by
  rw [hdims] at hnd
  exact IntervalGroup.indexOf?_of_split hdims fun hin =>
    List.disjoint_of_nodup_append hnd hin List.mem_cons_self

/-- What the promotion of the loop in a place comes down to. -/
theorem promote?_at {c : Cluster} {before inner : List Dimension} {d : Dimension}
    (hnd : c.dimensions.Nodup) (hdims : c.dimensions = before ++ d :: inner) (floor : Nat) :
    promote? c (c.loops.take (before.length + 1)) floor =
      if !c.properties.isParallelIndep d then .ok none
      else if hops c d floor before.length = 0 then .ok none
      else some <$> moveLoop c before.length (before.length - hops c d floor before.length) := by
  have hlast : ((c.loops.take (before.length + 1)).getLast?).map (·.dim) = some d := by
    have htake : (before ++ [d] ++ inner).take (before.length + 1) = before ++ [d] :=
      List.take_left' List.length_append
    rw [← List.getLast?_map, List.map_take, Cluster.loops_map_dim, hdims, List.append_cons, htake,
      List.getLast?_concat]
  obtain ⟨l, hl, rfl⟩ := Option.map_eq_some_iff.mp hlast
  simp only [promote?, hl, indexOf?_of_nodup hnd hdims]

/-- The loops passed and those beyond, in a nest up to some loop. -/
theorem hops_split_at {c : Cluster} {before inner : List Dimension} {d : Dimension}
    (hdims : c.dimensions = before ++ d :: inner) (floor : Nat) :
    ∃ front passed, before = front ++ passed ∧ passed.length = hops c d floor before.length ∧
      (passed ≠ [] → floor ≤ front.length) ∧
      (∀ e ∈ passed, c.properties.isParallel e = false ∧ e.sharesRoot d = false) ∧
      ∀ e ∈ (front.drop floor).getLast?,
        c.properties.isParallel e = true ∨ e.sharesRoot d = true := by
  obtain ⟨front, passed, hsplit, hrest⟩ := hops_split c d floor before.length
  rw [hdims, List.take_left] at hsplit
  exact ⟨front, passed, hsplit, hrest⟩

/-- A loop that stays is held. -/
theorem promote?_stays {c : Cluster} {before inner : List Dimension} {d : Dimension}
    (hnd : c.dimensions.Nodup) (hdims : c.dimensions = before ++ d :: inner)
    (hheld : (before.drop depth).IsChain c.properties.Holds) (hle : depth ≤ before.length)
    (h : promote? c (c.loops.take (before.length + 1)) depth = .ok none) :
    ((before ++ [d]).drop depth).IsChain c.properties.Holds := by
  rw [List.drop_append_of_le_length hle]
  refine List.isChain_append.mpr ⟨hheld, .singleton _, fun e he y hy hindep => ?_⟩
  obtain rfl : d = y := Option.some.inj hy
  obtain ⟨front, passed, hbefore, hlen, -, -, hheld⟩ := hops_split_at hdims depth
  rw [promote?_at hnd hdims, hindep] at h
  split at h
  · rename_i hfalse
    cases hfalse
  split at h
  · rename_i hnone
    rw [hnone, List.length_eq_zero_iff] at hlen
    rw [hbefore, hlen, List.append_nil] at he
    exact hheld e he
  · cases hm : moveLoop c before.length (before.length - hops c d depth before.length) with
    | error e => rw [hm] at h; cases h
    | ok c' => rw [hm] at h; cases h

/-- A loop that moves comes to stand directly outside the loops that it passes. -/
theorem promote?_passes {c c' : Cluster} {before inner : List Dimension} {d : Dimension}
    (hnd : c.dimensions.Nodup) (hdims : c.dimensions = before ++ d :: inner)
    (h : promote? c (c.loops.take (before.length + 1)) floor = .ok (some c')) :
    c'.dimensions.Nodup ∧ c'.properties = c.properties ∧ ∃ front passed,
      before = front ++ passed ∧ floor ≤ front.length ∧
      c'.dimensions.take (before.length + 1) = front ++ d :: passed ∧
      (∀ e ∈ passed, c.properties.isParallel e = false ∧ e.sharesRoot d = false) ∧
      ∀ e ∈ (front.drop floor).getLast?,
        c.properties.isParallel e = true ∨ e.sharesRoot d = true := by
  obtain ⟨front, passed, rfl, hlen, hfloor, hfree, hstop⟩ := hops_split_at hdims floor
  rw [promote?_at hnd hdims] at h
  split at h
  · cases h
  split at h
  · cases h
  rename_i hn
  rw [← hlen, List.length_append, Nat.add_sub_cancel] at h
  rw [← hlen] at hn
  obtain ⟨moved, hm, he⟩ := returns_map (returns_ok h)
  obtain rfl := Option.some.inj he
  have hindex := indexOf?_of_nodup hnd hdims
  rw [List.length_append] at hindex
  obtain ⟨x, inner', hx, -, hmoved, hprop, hnd'⟩ := moveLoop_order (Nat.le_add_right _ _) hindex hm
  refine ⟨hnd', hprop, front, passed, rfl, hfloor (mt List.length_eq_zero_iff.mpr hn), ?_, hfree,
    hstop⟩
  have hdims' : c'.dimensions = (front ++ d :: passed) ++ inner'.map Interval.dim := by
    have hmap := congrArg (List.map Interval.dim) hmoved
    have hall : c.intervals.map Interval.dim = front ++ passed ++ d :: inner := hdims
    rw [List.map_append, List.map_cons, List.map_append, List.map_take, List.map_drop,
      List.map_take, hall, hx, ← List.length_append, List.take_left, List.drop_left,
      List.append_assoc, List.take_left] at hmap
    rw [List.append_assoc, List.cons_append]
    exact hmap
  rw [hdims']
  exact List.take_left' (by simp; omega)

/-- A loop that moves is held where it comes to stand, and holds the first loop that it passes. -/
theorem promote?_moves {c c' : Cluster} {before inner : List Dimension} {d : Dimension}
    (hnd : c.dimensions.Nodup) (hdims : c.dimensions = before ++ d :: inner)
    (hheld : (before.drop depth).IsChain c.properties.Holds)
    (h : promote? c (c.loops.take (before.length + 1)) depth = .ok (some c')) :
    c'.dimensions.Nodup ∧ ((c'.dimensions.take (before.length + 1)).drop depth).IsChain
      c'.properties.Holds := by
  obtain ⟨hnd', hprop, front, passed, rfl, hdepth, htake, hfree, hstop⟩ :=
    promote?_passes hnd hdims h
  refine ⟨hnd', ?_⟩
  rw [List.drop_append_of_le_length hdepth] at hheld
  obtain ⟨hfront, hpassed, -⟩ := List.isChain_append.mp hheld
  rw [htake, hprop, List.drop_append_of_le_length hdepth]
  refine List.isChain_append.mpr ⟨hfront, List.isChain_cons.mpr ⟨fun e he hindep => ?_, hpassed⟩,
    fun e he y hy _ => ?_⟩
  · have hpar := Properties.isParallel_of_isParallelIndep hindep
    rw [(hfree e (List.mem_of_head? he)).1] at hpar
    cases hpar
  · obtain rfl : d = y := Option.some.inj hy
    exact hstop e he

/-- A loop that is held stays where it is. -/
theorem promote?_held {c : Cluster} {before inner : List Dimension} {d : Dimension}
    (hnd : c.dimensions.Nodup) (hdims : c.dimensions = before ++ d :: inner)
    (hle : depth ≤ before.length) (hheld : c.HeldBelow depth) :
    promote? c (c.loops.take (before.length + 1)) depth = .ok none := by
  obtain ⟨front, passed, hbefore, hlen, hfloor, hfree, -⟩ := hops_split_at hdims depth
  rw [promote?_at hnd hdims]
  cases hindep : c.properties.isParallelIndep d with
  | false => rfl
  | true =>
    rw [Bool.not_true, if_neg Bool.false_ne_true, if_pos]
    rw [← hlen, List.length_eq_zero_iff]
    rcases List.eq_nil_or_concat passed with hnone | ⟨others, e, hlast⟩
    · exact hnone
    · -- the loop just outside would be passed, but it holds this one
      have hne : passed ≠ [] := by
        rw [hlast]
        simp
      rw [Cluster.HeldBelow, hdims, List.drop_append_of_le_length hle, hbefore,
        List.drop_append_of_le_length (hfloor hne), hlast] at hheld
      obtain ⟨-, -, hjoin⟩ := List.isChain_append.mp hheld
      have hholds := hjoin e (by simp) d rfl hindep
      obtain ⟨hpar, hroot⟩ := hfree e (by simp [hlast])
      rw [hpar, hroot] at hholds
      simp at hholds

def SharesAtMost (n : Nat) (c d : Cluster) : Prop :=
  ∀ shared, shared <+: c.loops → shared <+: d.loops → shared.length ≤ n

theorem SharesAtMost.symm (h : SharesAtMost n c d) : SharesAtMost n d c :=
  fun shared hd hc => h shared hc hd

theorem SharesAtMost.mono (h : SharesAtMost m c d) (hle : m ≤ n) : SharesAtMost n c d :=
  fun shared hc hd => (h shared hc hd).trans hle

/-- The clusters on the right, one for each on the left, are held: below any depth, from the given
one on, beyond which the cluster on the left shares no loops with its neighbours. -/
structure HeldApart (depth : Nat) (xs ys : List Cluster) : Prop where
  length : xs.length = ys.length
  held : ∀ before p after, xs.zip ys = before ++ p :: after → ∀ n, depth ≤ n →
    (∀ q ∈ before.getLast?, SharesAtMost n p.1 q.1) →
    (∀ q ∈ after.head?, SharesAtMost n p.1 q.1) → p.2.HeldBelow n

namespace HeldApart

variable {depth n : Nat} {xs ys xs' ys' : List Cluster}

theorem mono (h : HeldApart depth xs ys) (hle : depth ≤ n) : HeldApart n xs ys :=
  ⟨h.length, fun before p after hsplit m hm => h.held before p after hsplit m (hle.trans hm)⟩

theorem of_forall (h : List.Forall₂ (fun _ c' : Cluster => c'.HeldBelow depth) xs ys) :
    HeldApart depth xs ys := by
  obtain ⟨hlen, hall⟩ := List.forall₂_iff_zip.mp h
  refine ⟨hlen, fun before p after hsplit n hn _ _ => ?_⟩
  have hin : (p.1, p.2) ∈ xs.zip ys := hsplit ▸ List.mem_append_right before List.mem_cons_self
  exact (hall hin).mono hn

/-- A cluster by itself has no neighbours. -/
theorem single_iff {c : Cluster} :
    HeldApart depth [c] ys ↔ ∃ c', ys = [c'] ∧ c'.HeldBelow depth := by
  constructor
  · intro h
    obtain ⟨c', rfl⟩ := List.length_eq_one_iff.mp h.length.symm
    exact ⟨c', rfl, h.held [] (c, c') [] rfl depth le_rfl (by simp) (by simp)⟩
  · rintro ⟨c', rfl, hheld⟩
    exact of_forall (.cons hheld .nil)

theorem append (h : HeldApart depth xs ys) (h' : HeldApart depth xs' ys') :
    HeldApart depth (xs ++ xs') (ys ++ ys') where
  length := by rw [List.length_append, List.length_append, h.length, h'.length]
  held before p after hsplit n hn hbefore hafter := by
    rw [List.zip_append h.length] at hsplit
    rcases List.append_eq_append_iff.mp hsplit with ⟨mid, rfl, hmid⟩ | ⟨mid, hmid, hrest⟩
    · exact h'.held mid p after hmid n hn
        (fun q hq => hbefore q (by rw [List.getLast?_append, hq]; rfl)) hafter
    · cases mid with
      | nil => exact h'.held [] p after hrest.symm n hn (by simp) hafter
      | cons r mid =>
        obtain ⟨rfl, hafter'⟩ := List.cons.inj hrest
        refine h.held before p mid hmid n hn hbefore fun q hq => hafter q ?_
        rw [show after = mid ++ xs'.zip ys' from hafter', List.head?_append, hq]
        rfl

/-- Parts that share no more loops than the depth says are held each by itself. -/
theorem of_append (h : HeldApart depth (xs ++ xs') (ys ++ ys')) (hlen : xs.length = ys.length)
    (hjoin : ∀ c ∈ xs.getLast?, ∀ d ∈ xs'.head?, SharesAtMost depth c d) :
    HeldApart depth xs ys ∧ HeldApart depth xs' ys' := by
  have hlen' : xs'.length = ys'.length := by
    have hall := h.length
    rw [List.length_append, List.length_append, hlen] at hall
    exact Nat.add_left_cancel hall
  have hpairs : (xs ++ xs').zip (ys ++ ys') = xs.zip ys ++ xs'.zip ys' := List.zip_append hlen
  have hborder : ∀ p ∈ (xs.zip ys).getLast?, ∀ q ∈ (xs'.zip ys').head?,
      SharesAtMost depth p.1 q.1 := by
    intro p hp q hq
    refine hjoin p.1 ?_ q.1 ?_
    · rw [← List.map_fst_zip hlen.le, List.getLast?_map]
      exact Option.mem_map_of_mem Prod.fst hp
    · rw [← List.map_fst_zip hlen'.le, List.head?_map]
      exact Option.mem_map_of_mem Prod.fst hq
  refine ⟨⟨hlen, fun before p after hsplit n hn hbefore hafter => ?_⟩,
    ⟨hlen', fun before p after hsplit n hn hbefore hafter => ?_⟩⟩
  · refine h.held before p (after ++ xs'.zip ys') (by rw [hpairs, hsplit]; simp) n hn hbefore ?_
    intro q hq
    cases after with
    | nil => exact (hborder p (by simp [hsplit]) q hq).mono hn
    | cons r after => exact hafter q hq
  · refine h.held (xs.zip ys ++ before) p after (by rw [hpairs, hsplit]; simp) n hn ?_ hafter
    intro q hq
    rcases List.eq_nil_or_concat before with rfl | ⟨before, r, rfl⟩
    · rw [List.append_nil] at hq
      exact ((hborder q hq p (by simp [hsplit])).mono hn).symm
    · exact hbefore q (by simpa [← List.append_assoc] using hq)

/-- Clusters that share one more loop are each next to another one. -/
theorem of_shared (h : HeldApart (depth + 1) xs ys) (hmany : 1 < xs.length)
    {outer : List IterationInterval} (hlong : outer.length = depth + 1)
    (hshared : ∀ c ∈ xs, c.loops.take (depth + 1) = outer) : HeldApart depth xs ys where
  length := h.length
  held before p after hsplit n hn hbefore hafter := by
    have houter : ∀ q ∈ xs.zip ys, outer <+: q.1.loops := by
      intro q hq
      rw [← hshared q.1 (List.of_mem_zip hq).1]
      exact List.take_prefix _ _
    have hp := houter p (hsplit ▸ List.mem_append_right before List.mem_cons_self)
    have hdeeper : depth + 1 ≤ n := by
      rw [← hlong]
      rcases List.eq_nil_or_concat before with rfl | ⟨before, q, rfl⟩
      · cases after with
        | nil =>
          have hone := congrArg List.length hsplit
          rw [List.length_zip, h.length, Nat.min_self, ← h.length] at hone
          exact absurd hone hmany.ne'
        | cons q after => exact hafter q rfl outer hp (houter q (by simp [hsplit]))
      · exact hbefore q (by simp) outer hp (houter q (by simp [hsplit]))
    exact h.held before p after hsplit n hdeeper hbefore hafter

/-- Held clusters whose neighbours still share what those on the left shared. -/
theorem of_keepsShared (h : HeldApart depth xs ys) (hkeeps : (xs.zip ys).IsChain KeepsShared) :
    HeldApart depth ys ys where
  length := rfl
  held before p after hsplit n hn hbefore hafter := by
    have hpairs : ys.zip ys = (xs.zip ys).map fun q => (q.2, q.2) := by
      conv_lhs => rw [← List.map_snd_zip h.length.ge]
      rw [List.zip_map']
    rw [hpairs] at hsplit
    obtain ⟨before, rest, hpairs, rfl, hrest⟩ := List.map_eq_append_iff.mp hsplit
    obtain ⟨p, after, rfl, rfl, rfl⟩ := List.map_eq_cons_iff.mp hrest
    rw [hpairs] at hkeeps
    obtain ⟨-, hkeepsAfter, hkeepsBefore⟩ := List.isChain_append.mp hkeeps
    refine h.held before p after hpairs n hn (fun q hq shared hp hs => ?_)
      fun q hq shared hp hs => ?_
    · obtain ⟨hs, hp⟩ := hkeepsBefore q hq p rfl shared hs hp
      exact hbefore (q.2, q.2) (by rw [List.getLast?_map, hq]; rfl) shared hp hs
    · obtain ⟨hp, hs⟩ := (List.isChain_cons.mp hkeepsAfter).1 q hq shared hp hs
      exact hafter (q.2, q.2) (by rw [List.head?_map, hq]; rfl) shared hp hs

end HeldApart

/-- The next loop of a nest that is longer. -/
theorem exists_next {c : Cluster} (h : n < c.loops.length) :
    ∃ before d inner, c.dimensions = before ++ d :: inner ∧ before.length = n := by
  rw [Cluster.length_loops] at h
  refine ⟨c.dimensions.take n, c.dimensions[n], c.dimensions.drop (n + 1), ?_,
    List.length_take_of_le h.le⟩
  rw [List.cons_getElem_drop_succ, List.take_append_drop]

/-- What was visited is held. -/
theorem Visit.heldApart {depth below n : Nat} {xs ys : List Cluster}
    (h : Visit depth below xs ys n) (hnd : ∀ c ∈ xs, c.dimensions.Nodup)
    (hheld : ∀ c ∈ xs, ((c.dimensions.take (depth + below)).drop depth).IsChain
      c.properties.Holds) : HeldApart depth xs ys := by
  induction h with
  | done h =>
    refine .of_forall (List.forall₂_same.mpr fun c hc => ?_)
    have hall := hheld c hc
    rwa [List.take_of_length_le (Cluster.length_loops c ▸ h c hc)] at hall
  | @stays depth below n c ys hlong h _ ih =>
    have hc := hnd c List.mem_cons_self
    have hheld := hheld c List.mem_cons_self
    obtain ⟨before, d, inner, hdims, hlen⟩ := exists_next hlong
    refine ih hnd (List.forall_mem_singleton.mpr ?_)
    have htake : c.dimensions.take (depth + (below + 1)) = before ++ [d] := by
      rw [hdims, List.append_cons]
      exact List.take_left' (by simp [hlen]; omega)
    rw [hdims, ← hlen, List.take_left] at hheld
    rw [htake]
    exact promote?_stays hc hdims hheld (by omega) (hlen ▸ h)
  | @moves depth below n c c' ys hlong h _ ih =>
    have hc := hnd c List.mem_cons_self
    have hheld := hheld c List.mem_cons_self
    obtain ⟨before, d, inner, hdims, hlen⟩ := exists_next hlong
    rw [hdims, ← hlen, List.take_left] at hheld
    obtain ⟨hnd', hheld'⟩ := promote?_moves hc hdims hheld (hlen ▸ h)
    have hapart := ih (List.forall_mem_singleton.mpr hnd')
      (List.forall_mem_singleton.mpr (by rwa [← Nat.add_assoc, ← hlen]))
    exact HeldApart.single_iff.mpr (HeldApart.single_iff.mp hapart)
  | @shared depth n xs ys outer hmany hlong h _ ih =>
    refine HeldApart.of_shared (ih hnd fun c hc => ?_) hmany hlong h
    rw [Nat.add_zero, List.drop_take_self]
    exact .nil
  | append _ _ _ ihleft ihright =>
    obtain ⟨hnd, hnd'⟩ := List.forall_mem_append.mp hnd
    obtain ⟨hheld, hheld'⟩ := List.forall_mem_append.mp hheld
    exact (ihleft hnd hheld).append (ihright hnd' hheld')

/-- Clusters that are held stay as they are. -/
theorem Visit.unchanged {depth below n : Nat} {xs ys : List Cluster}
    (h : Visit depth below xs ys n) (hnd : ∀ c ∈ xs, c.dimensions.Nodup)
    (hheld : HeldApart depth xs xs) : ys = xs ∧ n = 0 := by
  induction h with
  | done _ => exact ⟨rfl, rfl⟩
  | stays _ _ _ ih => exact ih hnd hheld
  | @moves depth below n c c' ys hlong h _ _ =>
    obtain ⟨_, hsame, hbelow⟩ := HeldApart.single_iff.mp hheld
    obtain ⟨rfl, -⟩ := List.cons.inj hsame
    obtain ⟨before, d, inner, hdims, hlen⟩ := exists_next hlong
    have hstays := promote?_held (hnd c List.mem_cons_self) hdims (by omega) hbelow
    rw [hlen, h] at hstays
    cases hstays
  | shared _ _ _ _ ih => exact ih hnd (hheld.mono (Nat.le_succ _))
  | append hborder _ _ ihleft ihright =>
    obtain ⟨hnd, hnd'⟩ := List.forall_mem_append.mp hnd
    obtain ⟨hleft, hright⟩ := hheld.of_append rfl fun c hc d hd shared hs hs' =>
      shared_length_le (hborder c hc d hd) hs hs'
    obtain ⟨rfl, rfl⟩ := ihleft hnd hleft
    obtain ⟨rfl, rfl⟩ := ihright hnd' hright
    exact ⟨rfl, rfl⟩

/-- A run of interchange leaves the clusters held below the loops that they shared. -/
theorem apply_heldApart {clusters : List Cluster} (hnd : ∀ c ∈ clusters, c.dimensions.Nodup)
    {s s' : State} (h : (apply clusters).run s = .ok (out, s')) : HeldApart 0 clusters out := by
  obtain ⟨n, -, hvisit⟩ := apply_visits h
  refine hvisit.heldApart hnd fun c _ => ?_
  rw [Nat.zero_add, List.take_zero]
  exact .nil

/-- A run of interchange changes nothing exactly if the clusters are held below the loops that they
share. -/
theorem apply_unchanged_iff {clusters : List Cluster} (hnd : ∀ c ∈ clusters, c.dimensions.Nodup)
    (s : State) : (∃ s', (apply clusters).run s = .ok (clusters, s') ∧ s'.moved = s.moved) ↔
      HeldApart 0 clusters clusters := by
  constructor
  · rintro ⟨s', hrun, -⟩
    exact apply_heldApart hnd hrun
  · intro hheld
    obtain ⟨out, s', hrun⟩ := apply_runs hnd s
    obtain ⟨n, hn, hvisit⟩ := apply_visits hrun
    obtain ⟨rfl, rfl⟩ := hvisit.unchanged hnd hheld
    exact ⟨s', hrun, hn⟩

/-- Interchange reaches its fixed point in one run. Below the outer loops that a cluster shared with
its neighbours, every loop without dependence components ends up directly inside a parallel loop or
one of its family. Another run changes nothing and moves nothing. -/
theorem apply_reaches_fixpoint {clusters : List Cluster}
    (hnd : ∀ c ∈ clusters, c.dimensions.Nodup) (s t : State) :
    ∃ out s', (apply clusters).run s = .ok (out, s') ∧ HeldApart 0 clusters out ∧
      ∃ t', (apply out).run t = .ok (out, t') ∧ t'.moved = t.moved := by
  obtain ⟨out, s', hrun⟩ := apply_runs hnd s
  obtain ⟨n, -, hvisit⟩ := apply_visits hrun
  have hheld := apply_heldApart hnd hrun
  have hndout : ∀ c ∈ out, c.dimensions.Nodup := by
    intro c' hc'
    obtain ⟨c, hc, hchanged⟩ :=
      exists_of_forall₂ (apply_interchanged hnd ⟨s, s', hrun⟩).flip hc'
    exact (hchanged.perm.map Interval.dim).nodup_iff.mpr (hnd c hc)
  exact ⟨out, s', hrun, hheld,
    (apply_unchanged_iff hndout t).mpr (hheld.of_keepsShared hvisit.pinned.shared)⟩

def twoMoving : List Cluster :=
  [.along [.basic "t", .basic "x", .basic "y", .basic "z"] []
      [(.basic "y", [.parallelIndep]), (.basic "z", [.parallelIndep])],
    .along [.basic "t"] [] []]

/-- Both loops move past the one over `x`, and the second one is held by the first. -/
theorem apply_reaches_fixpoint_twoMoving :
    (∀ c ∈ twoMoving, c.dimensions.Nodup) ∧
    ∃ out s', (apply twoMoving).run .empty = .ok (out, s') ∧
      (out.map fun c => c.dimensions.map Dimension.name) = [["t", "y", "z", "x"], ["t"]] ∧
      s'.moved = 2 ∧ HeldApart 0 twoMoving out ∧
      ∃ t', (apply out).run .empty = .ok (out, t') ∧ t'.moved = 0 := by
  have hnd : ∀ c ∈ twoMoving, c.dimensions.Nodup := by decide
  obtain ⟨out, s', hrun, hheld, hagain⟩ := apply_reaches_fixpoint hnd .empty .empty
  have hread : ((apply twoMoving).run .empty).toOption.map
      (fun r => (r.1.map fun c => c.dimensions.map Dimension.name, r.2.moved)) =
        some ([["t", "y", "z", "x"], ["t"]], 2) := by decide +kernel
  rw [hrun] at hread
  obtain ⟨hnames, hmoved⟩ := Prod.mk.inj (Option.some.inj hread)
  exact ⟨hnd, out, s', hrun, hnames, hmoved, hheld, hagain⟩

end Interchange
end LoopNest
