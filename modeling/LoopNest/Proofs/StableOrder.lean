import LoopNest.Proofs.BlockChains
import Mathlib.Data.Finset.Card
import Mathlib.Data.List.Lex

namespace LoopNest

namespace Precedes

variable {α β : Type} {l : List α} {a b : α}

theorem of_map {f : α → β} (hnd : (l.map f).Nodup) (ha : a ∈ l) (hb : b ∈ l)
    (h : Precedes (l.map f) (f a) (f b)) : Precedes l a b := by
  have hne : a ≠ b := fun he => h.ne hnd (congrArg f he)
  exact (total ha hb hne).resolve_right fun hba => h.asymm hnd (hba.map f)

/-- Nothing stands before the head of a list without repetitions. -/
theorem not_before_head (hnd : (b :: l).Nodup) : ¬Precedes (b :: l) a b := by
  intro h
  have hb := (List.nodup_cons.mp hnd).1
  rcases cons_iff.mp h with ⟨-, hin⟩ | h
  · exact hb hin
  · exact hb h.right_mem

theorem of_cons {x : α} (hnd : (x :: l).Nodup) (h : Precedes (x :: l) a b) (ha : a ∈ l) :
    Precedes l a b :=
  (cons_iff.mp h).resolve_left fun he => (List.nodup_cons.mp hnd).1 (he.1 ▸ ha)

end Precedes

/-- Lists compare as their images do, if the images tell the elements apart. -/
theorem lex_of_map {α β : Type} {f : α → β} {given l l' : List α} (hnd : (given.map f).Nodup)
    (hl : ∀ a ∈ l, a ∈ given) (hl' : ∀ a ∈ l', a ∈ given)
    (h : List.Lex (Precedes (given.map f)) (l.map f) (l'.map f)) :
    List.Lex (Precedes given) l l' := by
  induction l generalizing l' with
  | nil =>
    cases l' with
    | nil => cases h
    | cons b l' => exact .nil
  | cons a l ih =>
    cases l' with
    | nil => cases h
    | cons b l' =>
      obtain ⟨ha, hl⟩ := List.forall_mem_cons.mp hl
      obtain ⟨hb, htail⟩ := List.forall_mem_cons.mp hl'
      rcases List.cons_lex_cons_iff.mp h with hab | ⟨hab, hrest⟩
      · exact .rel (hab.of_map hnd ha hb)
      · obtain rfl := List.inj_on_of_nodup_map hnd ha hb hab
        exact .cons (ih hl htail hrest)

section
variable {α : Type} [DecidableEq α] {pending : List (α × List α)} {order : List α}

def Waits (pending : List (α × List α)) (p a : α) : Prop := ∃ e ∈ pending, e.1 = a ∧ p ∈ e.2

theorem waits_of_release {a : α} {before after : List (α × List α)} {p b : α}
    (h : Waits (release a (before ++ after)) p b) : Waits (before ++ (a, []) :: after) p b := by
  obtain ⟨e, he, rfl, hp⟩ := h
  obtain ⟨d, hd, rfl⟩ := List.mem_map.mp he
  exact ⟨d, mem_of_mem_rest hd, rfl, (List.mem_filter.mp hp).1⟩

omit [DecidableEq α] in
/-- Where a source is taken, no listed element that is further up can come first: it would wait for
unlisted elements only, which are all further up as well. -/
theorem source_precedes {a y : α} {before after : List (α × List α)} {listed : α → Bool}
    {other : List α} (hbusy : ∀ e ∈ before, e.2 ≠ [])
    (hnd : ((before ++ (a, []) :: after).map Prod.fst).Nodup)
    (hperm : order.Perm ((before ++ (a, []) :: after).map Prod.fst))
    (horder : ∀ e ∈ before ++ (a, []) :: after, ∀ p ∈ e.2, Precedes order p e.1)
    (hfront : ∀ u ∈ (before ++ (a, []) :: after).map Prod.fst, listed u = false →
      Precedes ((before ++ (a, []) :: after).map Prod.fst) u a)
    (hother : (y :: other).Perm (((before ++ (a, []) :: after).map Prod.fst).filter listed))
    (hsuits : ∀ u ∈ y :: other, ∀ v ∈ y :: other,
      Relation.TransGen (Waits (before ++ (a, []) :: after)) u v → Precedes (y :: other) u v)
    (hya : y ≠ a) : Precedes ((before ++ (a, []) :: after).map Prod.fst) a y := by
  have hy := (List.mem_filter.mp (hother.mem_iff.mp List.mem_cons_self)).1
  have ha : a ∈ (before ++ (a, []) :: after).map Prod.fst := by simp
  refine (Precedes.total ha hy hya.symm).resolve_right fun hback => ?_
  obtain ⟨e, he, hey⟩ := List.mem_map.mp hy
  -- the group: `y`, and whatever it waits for that is not listed
  refine not_behind_group (fun u => u = y ∨ listed u = false ∧
    Relation.TransGen (Waits (before ++ (a, []) :: after)) u y) hbusy hnd hperm horder ?_ ?_ e he
    (.inl hey)
  · intro d hd hgroup p hp
    have hstep : Waits (before ++ (a, []) :: after) p d.1 := ⟨d, hd, rfl, hp⟩
    have hpath : Relation.TransGen (Waits (before ++ (a, []) :: after)) p y := by
      rcases hgroup with hdy | ⟨-, hdy⟩
      · exact hdy ▸ .single hstep
      · exact .head hstep hdy
    cases hlisted : listed p with
    | false => exact .inr ⟨rfl, hpath⟩
    | true =>
      have hin := hperm.mem_iff.mp (horder d hd p hp).left_mem
      have hp := hother.mem_iff.mpr (List.mem_filter.mpr ⟨hin, hlisted⟩)
      have hnd' := hother.nodup_iff.mpr (hnd.filter listed)
      exact absurd (hsuits p hp y List.mem_cons_self hpath) (Precedes.not_before_head hnd')
  · rintro d hd (rfl | ⟨hlisted, -⟩)
    · exact hback
    · exact hfront d.1 (List.mem_map_of_mem hd) hlisted

def UnlistedFirst (listed : α → Bool) (pending : List (α × List α)) : Prop :=
  ∀ u ∈ pending.map Prod.fst, ∀ v ∈ pending.map Prod.fst, listed u = false → listed v = true →
    Precedes (pending.map Prod.fst) u v

theorem UnlistedFirst.release {before after : List (α × List α)} {e : α × List α}
    {listed : α → Bool} (h : UnlistedFirst listed (before ++ e :: after))
    (hnd : ((before ++ e :: after).map Prod.fst).Nodup) :
    UnlistedFirst listed (release e.1 (before ++ after)) := by
  intro u hu v hv hunlisted hlisted
  rw [release_map_fst hnd] at hu hv ⊢
  obtain ⟨hu, hue⟩ := List.mem_filter.mp hu
  obtain ⟨hv, hve⟩ := List.mem_filter.mp hv
  exact (h u hu v hv hunlisted hlisted).filter hue hve

/-- A source that is not listed leaves all listed elements when it is taken. -/
theorem filter_release_of_unlisted {before after : List (α × List α)} {e : α × List α}
    {listed : α → Bool} (hnd : ((before ++ e :: after).map Prod.fst).Nodup)
    (he : listed e.1 = false) :
    ((release e.1 (before ++ after)).map Prod.fst).filter listed =
      ((before ++ e :: after).map Prod.fst).filter listed := by
  rw [release_map_fst hnd, List.filter_filter]
  refine List.filter_congr fun u _ => ?_
  by_cases hue : u = e.1
  · simp [hue, he]
  · simp [hue]

theorem filter_release_of_listed (before after : List (α × List α)) {e : α × List α}
    {listed : α → Bool} (he : listed e.1 = true) :
    (((before ++ e :: after).map Prod.fst).filter listed).Perm
      (e.1 :: ((release e.1 (before ++ after)).map Prod.fst).filter listed) := by
  simp only [release_fst, List.map_append, List.map_cons, List.filter_append,
    List.filter_cons_of_pos he]
  exact List.perm_middle

/-- Of all orders of the listed elements in which each comes behind those it waits for, also where
it waits for them by way of elements that are not listed, the sources come in the least one by their
places, as long as the other elements are in front. -/
theorem takeSources_least {n : Nat} (listed : α → Bool) (other : List α)
    (h : takeSources n pending = some order) (hlen : pending.length = n)
    (hnd : (pending.map Prod.fst).Nodup) (hfront : UnlistedFirst listed pending)
    (hother : other.Perm ((pending.map Prod.fst).filter listed))
    (hsuits : ∀ u ∈ other, ∀ v ∈ other,
      Relation.TransGen (Waits pending) u v → Precedes other u v) :
    order.filter listed = other ∨
      List.Lex (Precedes ((pending.map Prod.fst).filter listed)) (order.filter listed) other := by
  induction n generalizing pending order other with
  | zero =>
    cases h
    rw [List.length_eq_zero_iff.mp hlen] at hother
    exact .inl (List.perm_nil.mp hother).symm
  | succ n ih =>
    obtain ⟨hperm, horder⟩ := takeSources_order h hlen
    obtain ⟨a, rest, out, hs, ht, rfl⟩ := takeSources_succ.mp h
    obtain ⟨before, after, rfl, rfl, hbusy⟩ := takeSource_cases hs
    have hsub := release_map_fst hnd ▸ List.filter_sublist (p := (· ≠ a))
      (l := (before ++ (a, []) :: after).map Prod.fst)
    have hnext : ∀ other : List α,
        other.Perm (((release a (before ++ after)).map Prod.fst).filter listed) →
        (∀ u ∈ other, ∀ v ∈ other, Relation.TransGen (Waits (before ++ (a, []) :: after)) u v →
          Precedes other u v) →
        out.filter listed = other ∨
          List.Lex (Precedes (((before ++ (a, []) :: after).map Prod.fst).filter listed))
            (out.filter listed) other := by
      intro other hother hsuits
      have hlen' : (release a (before ++ after)).length = n := by
        simp [release] at hlen ⊢
        omega
      refine (ih other ht hlen' (hnd.sublist hsub) (hfront.release hnd) hother ?_).imp_right
        (List.Lex.imp (fun u v huv => List.Sublist.trans huv (hsub.filter listed)) _ _)
      exact fun u hu v hv huv =>
        hsuits u hu v hv (Relation.TransGen.mono (fun _ _ => waits_of_release) _ _ huv)
    cases hlisted : listed a with
    | false =>
      rw [List.filter_cons_of_neg (by simp [hlisted])]
      rw [← filter_release_of_unlisted hnd hlisted] at hother
      exact hnext other hother hsuits
    | true =>
      rw [List.filter_cons_of_pos hlisted]
      have ha : a ∈ (before ++ (a, []) :: after).map Prod.fst := by simp
      cases other with
      | nil => cases hother.mem_iff.mpr (List.mem_filter.mpr ⟨ha, hlisted⟩)
      | cons y other =>
        have hy := List.mem_filter.mp (hother.mem_iff.mp List.mem_cons_self)
        have hnd' := hother.nodup_iff.mpr (hnd.filter listed)
        by_cases hya : y = a
        · subst hya
          have htail := (hother.trans (filter_release_of_listed before after hlisted)).cons_inv
          refine (hnext other htail fun u hu v hv huv => ?_).imp (congrArg (y :: ·)) List.Lex.cons
          exact (hsuits u (List.mem_cons_of_mem _ hu) v (List.mem_cons_of_mem _ hv) huv).of_cons
            hnd' hu
        · have hay := source_precedes hbusy hnd hperm horder
            (fun u hu hunlisted => hfront u hu a ha hunlisted hlisted) hother hsuits hya
          exact .inr (.rel (hay.filter hlisted hy.2))

/-- The order of a list by pairs, without some leading elements, is the least one by places that
suits all that the pairs imply. -/
theorem linearExtension?_least {leading present other : List α} {pairs : List (α × α)}
    (h : linearExtension? (leading ++ present) pairs = some order)
    (hnd : (leading ++ present).Nodup) (hother : other.Perm present)
    (hsuits : ∀ u ∈ other, ∀ v ∈ other,
      Relation.TransGen (fun p q => (p, q) ∈ pairs) u v → Precedes other u v) :
    order.filter (· ∈ present) = other ∨
      List.Lex (Precedes present) (order.filter (· ∈ present)) other := by
  have hlisted : (leading ++ present).filter (· ∈ present) = present := by
    have hapart := (List.nodup_append.mp hnd).2.2
    rw [List.filter_append, List.filter_eq_nil_iff.mpr fun a ha => ?_,
      List.filter_eq_self.mpr fun a ha => by simpa using ha, List.nil_append]
    simpa using fun hin => hapart a ha a hin rfl
  have hwaits : ∀ {p a}, Waits ((leading ++ present).map fun a => (a, predecessors pairs a)) p a →
      (p, a) ∈ pairs := by
    rintro p a ⟨e, he, rfl, hp⟩
    obtain ⟨b, -, rfl⟩ := List.mem_map.mp he
    exact mem_predecessors.mp hp
  have hleast := takeSources_least (· ∈ present) other h (by simp)
  simp only [UnlistedFirst, map_entries, hlisted] at hleast
  refine hleast hnd (fun u hu v _ hu' hv => ?_) hother fun u hu v hv huv =>
    hsuits u hu v hv (Relation.TransGen.mono (fun _ _ => hwaits) _ _ huv)
  simp only [decide_eq_false_iff_not, decide_eq_true_eq] at hu' hv
  exact .append ((List.mem_append.mp hu).resolve_right hu') hv

end

theorem Error.Is.unique {e : Error} {kind kind' : InternalKind} (h : e.Is kind) (h' : e.Is kind') :
    kind = kind' := by
  obtain ⟨message, rfl⟩ := h
  obtain ⟨message', h'⟩ := h'
  exact (Error.internal.inj h').1

namespace IntervalGroup

variable {intervals : List Interval} {relations : List (List Dimension)} {g : IntervalGroup}

def Cyclic (relations : List (List Dimension)) : Prop :=
  ∃ d, Relation.TransGen (Linked relations) d d

/-- Chains lead from none of the intervals to one further out, also over dimensions without an
interval. -/
def Follows (intervals : List Interval) (relations : List (List Dimension)) : Prop :=
  ∀ a ∈ intervals.map Interval.dim, ∀ b ∈ intervals.map Interval.dim,
    Relation.TransGen (Linked relations) a b → Precedes (intervals.map Interval.dim) a b

/-- The intervals in the least order, by the places in which they were given, of those that follow
the chains. -/
structure LeastOrder (intervals : List Interval) (relations : List (List Dimension))
    (out : List Interval) : Prop where
  perm : out.Perm intervals
  follows : Follows out relations
  least : ∀ other, other.Perm intervals → Follows other relations →
    out = other ∨ List.Lex (Precedes intervals) out other

/-- Without a cycle, a dimension to which chains lead from another one is led to from more. -/
theorem exists_rank (h : ¬Cyclic relations) :
    ∃ rank : Dimension → Nat, ∀ p q, Linked relations p q → rank p < rank q := by
  classical
  refine ⟨fun d => (relations.flatten.toFinset.filter
    fun e => Relation.TransGen (Linked relations) e d).card, fun p q hpq => ?_⟩
  refine Finset.card_lt_card ((Finset.ssubset_iff_of_subset fun e he => ?_).mpr ⟨p, ?_, ?_⟩)
  · rw [Finset.mem_filter] at he ⊢
    exact ⟨he.1, he.2.tail hpq⟩
  · obtain ⟨chain, hchain, hp⟩ := hpq
    have hin : p ∈ relations.flatten :=
      List.mem_flatten.mpr ⟨chain, hchain, (precedes_of_mem_chainPairs hp).left_mem⟩
    exact Finset.mem_filter.mpr ⟨List.mem_toFinset.mpr hin, .single ⟨chain, hchain, hp⟩⟩
  · exact fun hp => h ⟨p, (Finset.mem_filter.mp hp).2⟩

theorem not_cyclic_of_build (h : build intervals relations = .ok g) : ¬Cyclic relations := by
  rintro ⟨d, hpath⟩
  obtain ⟨order, hnd, horder, -⟩ := build_order h
  exact (horder d d hpath).ne hnd rfl

/-- A dimension that occurs twice is reported, whatever the chains say. -/
theorem build_repeated (h : ¬(intervals.map Interval.dim).Nodup) :
    ∃ e, build intervals relations = .error e ∧ e.Is .dimensionMismatch := by
  unfold build
  dsimp only
  cases hrep : firstRepeated? [] (intervals.map Interval.dim) with
  | none => exact absurd (firstRepeated?_eq_none.mp hrep).1 h
  | some d => exact ⟨_, rfl, _, rfl⟩

theorem build_leastOrder (h : build intervals relations = .ok g) :
    LeastOrder intervals relations g.intervals := by
  obtain ⟨hnd, -, order, horder, hlisted⟩ := build_cases h
  have hperm := build_perm h
  refine ⟨hperm, fun a ha b hb hpath => build_precedes_of_path h hpath ha hb, ?_⟩
  intro other hother hfollows
  have hdims := pick_map_dim intervals order
  rw [← hlisted] at hdims
  have hsub : ∀ i ∈ g.intervals, i ∈ intervals := fun i hi => hperm.mem_iff.mp hi
  have hsub' : ∀ i ∈ other, i ∈ intervals := fun i hi => hother.mem_iff.mp hi
  have hleast := linearExtension?_least horder (absent_append_nodup hnd)
    (hother.map Interval.dim) fun u hu v hv hpath => hfollows u hu v hv ?_
  · rw [← hdims] at hleast
    exact hleast.imp (eq_of_map_dim hnd hsub hsub') (lex_of_map hnd hsub hsub')
  · refine Relation.TransGen.mono (fun p q hpq => ?_) _ _ hpath
    obtain ⟨chain, hchain, hpq⟩ := List.mem_flatMap.mp hpq
    exact (linked_build h).mp ⟨chain, hchain, hpq⟩

theorem build_cyclic (hnd : (intervals.map Interval.dim).Nodup) (hc : Cyclic relations) :
    ∃ e, build intervals relations = .error e ∧ e.Is .cyclicRelations := by
  cases h : build intervals relations with
  | ok g => exact absurd hc (not_cyclic_of_build h)
  | error e => exact ⟨e, rfl, build_error hnd h⟩

theorem build_returns (hnd : (intervals.map Interval.dim).Nodup) (hc : ¬Cyclic relations) :
    ∃ g, build intervals relations = .ok g := by
  obtain ⟨rank, hgrow⟩ := exists_rank hc
  cases h : build intervals relations with
  | ok g => exact ⟨g, rfl⟩
  | error e => exact absurd (build_error hnd h) (not_cyclic_of_rank rank hgrow h)

/-- Building a group fails for a dimension that occurs twice, else for chains that lead in a circle,
and for nothing else. A group that is built has the intervals in the least order that follows its
chains; they keep their places exactly if these follow the chains. -/
theorem build_stable (intervals : List Interval) (relations : List (List Dimension)) :
    ((∃ e, build intervals relations = .error e ∧ e.Is .dimensionMismatch) ↔
      ¬(intervals.map Interval.dim).Nodup) ∧
    ((∃ e, build intervals relations = .error e ∧ e.Is .cyclicRelations) ↔
      (intervals.map Interval.dim).Nodup ∧ Cyclic relations) ∧
    ((∃ g, build intervals relations = .ok g) ↔
      (intervals.map Interval.dim).Nodup ∧ ¬Cyclic relations) ∧
    ∀ g, build intervals relations = .ok g → LeastOrder intervals relations g.intervals ∧
      (g.intervals = intervals ↔ Follows intervals relations) := by
  refine ⟨⟨?_, build_repeated⟩, ⟨?_, fun h => build_cyclic h.1 h.2⟩,
    ⟨?_, fun h => build_returns h.1 h.2⟩,
    fun g h => ⟨build_leastOrder h, build_intervals_iff h⟩⟩
  · rintro ⟨e, h, hkind⟩ hnd
    exact absurd (hkind.unique (build_error hnd h)) (by decide)
  · rintro ⟨e, h, hkind⟩
    have hnd : (intervals.map Interval.dim).Nodup := by
      by_contra hrep
      obtain ⟨e', h', hkind'⟩ : ∃ e', build intervals relations = .error e' ∧
          e'.Is .dimensionMismatch := build_repeated hrep
      obtain rfl := Except.error.inj (h.symm.trans h')
      exact absurd (hkind.unique hkind') (by decide)
    refine ⟨hnd, ?_⟩
    by_contra hc
    obtain ⟨g, h'⟩ := build_returns hnd hc
    cases h.symm.trans h'
  · rintro ⟨g, h⟩
    exact ⟨(build_cases h).1, not_cyclic_of_build h⟩

/-- A chain from `a` over `b` to `c` puts `a` in front, though there is no interval over `b`. -/
theorem build_stable_overGap :
    ∃ g, build [.closed (.basic "c") .zero .zero, .closed (.basic "a") .zero .zero]
        [[.basic "a", .basic "b", .basic "c"]] = .ok g ∧
      g.dimensions = [.basic "a", .basic "c"] ∧
      LeastOrder [.closed (.basic "c") .zero .zero, .closed (.basic "a") .zero .zero]
        [[.basic "a", .basic "b", .basic "c"]] g.intervals := by
  obtain ⟨g, hg, hdims⟩ := exists_of_toOption
    (x := build [.closed (.basic "c") .zero .zero, .closed (.basic "a") .zero .zero]
      [[.basic "a", .basic "b", .basic "c"]])
    (f := dimensions) (b := [.basic "a", .basic "c"]) (by decide +kernel)
  exact ⟨g, hg, hdims, ((build_stable _ _).2.2.2 g hg).1⟩

end IntervalGroup
end LoopNest
