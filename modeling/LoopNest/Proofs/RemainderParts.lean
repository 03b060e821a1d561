import LoopNest.Pass.Remainder
import LoopNest.Proofs.BlockScopes
import LoopNest.Proofs.Substitutions

namespace LoopNest

def Interval.Covers (v : Valuation) : Interval → Int → Prop
  | .closed d lower upper, p =>
    d.endpoint v .lower + lower.denote v ≤ p ∧ p ≤ d.endpoint v .upper + upper.denote v
  | .null _, _ => False

instance (v : Valuation) (p : Int) : (i : Interval) → Decidable (i.Covers v p)
  | .closed _ _ _ => inferInstanceAs (Decidable (_ ∧ _))
  | .null _ => inferInstanceAs (Decidable False)

/-- An extent runs from the first to the last point covered. -/
theorem Interval.covers_of_extent {i : Interval} {first last : LinExpr}
    (h : i.extent = .ok (some (first, last))) (v : Valuation) (p : Int) :
    i.Covers v p ↔ first.denote v ≤ p ∧ p ≤ last.denote v := by
  cases i with
  | null d => cases h
  | closed d lower upper =>
    obtain ⟨low, high, hlow, hhigh, hfirst, hlast⟩ := extent_closed h
    rw [Covers, LinExpr.add_denote hfirst, LinExpr.add_denote hlast, Dimension.bound_denote hlow,
      Dimension.bound_denote hhigh]

namespace Remainder

/-- An equation moved from a dimension onto an interval over a slab of it: the interval takes the
place of the old one, and at a point of the slab all subscripts are those of the source there. -/
structure Piece (e : Equation) (d : Dimension) (i : Interval) (part : Equation) : Prop where
  space : e.ispace.expand d [i] [] = .ok part.ispace
  found : part.ispace.intervals.find? i.dim = some i
  lhs : ∀ v, part.lhs.element v = e.lhs.element (Function.update v d.name (v i.dim.name))
  rhs : ∀ v, part.rhs.accesses.map (·.element v) =
    e.rhs.accesses.map (·.element (Function.update v d.name (v i.dim.name)))

/-- Retargeting puts the new interval into the nest, shifts the footprints by what the bounds differ
and renames the index in all subscripts. -/
theorem retarget_cases {e part : Equation} {current i : Interval} {d : Dimension}
    (h : retarget e current d i = .ok part) :
    ∃ lower upper, (∀ l u l' u', current.bounds? = some (l, u) → i.bounds? = some (l', u') →
        l'.sub l = .ok lower ∧ u'.sub u = .ok upper) ∧
      e.ispace.expand d [i] [] = .ok part.ispace ∧
      e.dspace.remap d i.dim lower upper = .ok part.dspace ∧
      e.lhs.substitute (.rename d.name i.dim.name) = .ok part.lhs ∧
      e.rhs.substitute (.rename d.name i.dim.name) = .ok part.rhs := by
  unfold retarget at h
  extract_lets rebuild at h
  have htail : ∃ lower upper, (∀ l u l' u', current.bounds? = some (l, u) →
      i.bounds? = some (l', u') → l'.sub l = .ok lower ∧ u'.sub u = .ok upper) ∧
      rebuild (lower, upper) = .ok part := by
    split at h
    · rename_i l u l' u' hcurrent hi
      obtain ⟨lower, hlower, h⟩ := Returns.of_bind (returns_ok h)
      obtain ⟨upper, hupper, h⟩ := Returns.of_bind h
      obtain ⟨bounds, hbounds, h⟩ := Returns.of_bind h
      refine ⟨lower, upper, ?_, Returns.of_pure hbounds ▸ h⟩
      intro l₁ u₁ l₂ u₂ h₁ h₂
      cases h₁.symm.trans hcurrent
      cases h₂.symm.trans hi
      exact ⟨hlower, hupper⟩
    · rename_i hnone
      obtain ⟨bounds, hbounds, h⟩ := Returns.of_bind (returns_ok h)
      exact ⟨.zero, .zero, fun l u l' u' h₁ h₂ => (hnone l u l' u' h₁ h₂).elim,
        Returns.of_pure hbounds ▸ h⟩
  obtain ⟨lower, upper, hshift, h⟩ := htail
  obtain ⟨ispace, hi, h⟩ := Returns.of_bind (returns_ok h)
  obtain ⟨dspace, hd, h⟩ := Returns.of_bind h
  obtain ⟨renamed, hr, h⟩ := Returns.of_bind h
  obtain ⟨lhs, hl, hr⟩ := Returns.of_bind hr
  obtain ⟨rhs, hrhs, hr⟩ := Returns.of_bind hr
  rw [Returns.of_pure h, Returns.of_pure hr]
  exact ⟨lower, upper, hshift, mapError_ok hi, hd, hl, hrhs⟩

theorem retarget_piece {e part : Equation} {current i : Interval} {d : Dimension}
    (h : retarget e current d i = .ok part) : Piece e d i part := by
  obtain ⟨lower, upper, -, hi, -, hl, hr⟩ := retarget_cases h
  have hmoved := Substitution.valuation_rename d.name i.dim.name
  refine ⟨hi, ?_, fun v => hmoved v ▸ Access.substitute_element hl v,
    fun v => hmoved v ▸ Expr.substitute_accesses v hr⟩
  obtain ⟨g, hg, hi⟩ := Returns.of_bind (returns_ok hi)
  obtain ⟨k, -, hbuild⟩ := IntervalGroup.expand_cases hg
  have hin : i ∈ g.intervals := (IntervalGroup.build_perm hbuild).mem_iff.mpr (by simp)
  rw [Returns.of_pure hi]
  exact IntervalGroup.find?_dim (IntervalGroup.build_dimensions_nodup hbuild) hin rfl

theorem find?_of_intervalOver {e : Equation} {d : Dimension} {i : Interval}
    (h : intervalOver d e = .ok i) : e.ispace.intervals.find? d = some i := by
  unfold intervalOver at h
  split at h
  · cases h
    assumption
  · cases h

theorem dim_of_intervalOver {e : Equation} {d : Dimension} {i : Interval}
    (h : intervalOver d e = .ok i) : i.dim = d :=
  IntervalGroup.dim_of_find? (find?_of_intervalOver h)

def Encloses (i : Interval) (lower upper : LinExpr) : Prop :=
  ∃ l u, i = .closed i.dim l u ∧ ∀ v, l.denote v ≤ lower.denote v ∧ upper.denote v ≤ u.denote v

theorem Encloses.closed {i : Interval} {lower upper : LinExpr} (h : Encloses i lower upper) :
    ∃ l u, i = .closed i.dim l u := by
  obtain ⟨l, u, hi, -⟩ := h
  exact ⟨l, u, hi⟩

/-- What two intervals have in common lies in both. -/
theorem intersection_closed {i j : Interval} {d : Dimension} {lower upper : LinExpr}
    (h : i.intersection j = .ok (.closed d lower upper)) :
    Encloses i lower upper ∧ Encloses j lower upper := by
  obtain ⟨-, -, h⟩ := Returns.of_bind (returns_ok h)
  cases i with
  | null d' => cases Returns.of_pure h
  | closed d₁ l₁ u₁ =>
    cases j with
    | null d' => cases Returns.of_pure h
    | closed d₂ l₂ u₂ =>
      obtain ⟨low, hlow, h⟩ := Returns.of_bind h
      obtain ⟨high, hhigh, h⟩ := Returns.of_bind h
      have h := Returns.of_pure h
      split at h
      · cases h
      · cases h
        have hl := LinExpr.maxBound_denote hlow
        have hu := LinExpr.minBound_denote hhigh
        exact ⟨⟨l₁, u₁, rfl, fun v => ⟨(hl v).1, (hu v).1⟩⟩,
          l₂, u₂, rfl, fun v => ⟨(hl v).2, (hu v).2⟩⟩

theorem Encloses.trans {i : Interval} {d : Dimension} {l u lower upper : LinExpr}
    (h : Encloses i l u) (h' : Encloses (.closed d l u) lower upper) : Encloses i lower upper := by
  obtain ⟨li, ui, hi, hle⟩ := h
  obtain ⟨l', u', heq, hle'⟩ := h'
  cases heq
  exact ⟨li, ui, hi, fun v => ⟨(hle v).1.trans (hle' v).1, (hle' v).2.trans (hle v).2⟩⟩

theorem common_enclosed {intervals : List Interval} {d : Dimension} {lower upper : LinExpr}
    (h : commonInterval? intervals = .ok (some (.closed d lower upper))) :
    ∀ i ∈ intervals, Encloses i lower upper := by
  cases intervals with
  | nil => cases h
  | cons first rest =>
    obtain ⟨common, hfold, heq⟩ := returns_map (returns_ok h)
    cases heq
    have hall := returns_foldlM (P := fun done acc => ∀ d l u, acc = Interval.closed d l u →
      ∀ i ∈ first :: done, Encloses i l u) hfold ?_ ?_
    · exact hall d lower upper rfl
    · rintro d l u rfl i hi
      rw [List.mem_singleton.mp hi]
      exact ⟨l, u, rfl, fun v => ⟨le_refl _, le_refl _⟩⟩
    · rintro done i acc next - hacc hnext d l u rfl
      obtain ⟨hleft, hright⟩ := intersection_closed hnext
      intro j hj
      rw [← List.cons_append] at hj
      rcases List.mem_append.mp hj with hj | hj
      · obtain ⟨la, ua, ha⟩ := hleft.closed
        rw [ha] at hleft
        exact (hacc _ la ua ha j hj).trans hleft
      · rw [List.mem_singleton.mp hj]
        exact hright

def Noted (d : Dimension) (region : LinExpr → Region) (known : SideSlabs) : Prop :=
  ∀ s ∈ known, ∃ name, s.2 = .sub name d (region s.1)

theorem sideSlab_noted {d dim : Dimension} {region : LinExpr → Region} {known known' : SideSlabs}
    (hknown : Noted d region known)
    (h : returns (sideSlab d slab region known thickness) (dim, known')) :
    (∃ name, dim = .sub name d (region thickness)) ∧ Noted d region known' := by
  unfold sideSlab at h
  split at h
  · rename_i s hs
    cases Returns.of_pure h
    obtain ⟨name, hname⟩ := hknown s (List.mem_of_find?_eq_some hs)
    have hthick : s.1 = thickness := by simpa using List.find?_some hs
    exact ⟨⟨name, hthick ▸ hname⟩, hknown⟩
  · obtain ⟨name, -, h⟩ := Returns.of_bind h
    cases Returns.of_pure h
    exact ⟨⟨name, rfl⟩, List.forall_mem_cons.mpr ⟨⟨name, rfl⟩, hknown⟩⟩

theorem orderRemainder_ok {a b : LinExpr} {order : BoundOrder}
    (h : Interval.orderRemainder a b = .ok order) :
    a.compareBound b = order ∧ order ≠ .incomparable := by
  unfold Interval.orderRemainder at h
  split at h
  · cases h
  · rename_i hne
    cases h
    exact ⟨rfl, hne⟩

/-- The part before a range starts where the whole does, unless the whole starts in the range. -/
theorem leftRemainder_cases {d : Dimension} {l u lower upper : LinExpr} {left : Interval}
    (h : (Interval.closed d l u).leftRemainder (.closed d lower upper) = .ok left) :
    (∃ last, left.bounds? = some (l, last)) ∨
      left.bounds? = none ∧ ∀ v, lower.denote v ≤ l.denote v := by
  obtain ⟨-, -, h⟩ := Returns.of_bind (returns_ok h)
  obtain ⟨order, ho, h⟩ := Returns.of_bind h
  obtain ⟨hcmp, hne⟩ := orderRemainder_ok (mapError_ok ho)
  have hval := LinExpr.compareBound_denote l lower
  rw [hcmp] at hval
  cases order with
  | lt =>
    obtain ⟨last, -, h⟩ := Returns.of_bind h
    rw [Returns.of_pure h]
    exact .inl ⟨last, rfl⟩
  | eq =>
    rw [Returns.of_pure h]
    exact .inr ⟨rfl, fun v => (hval v).ge⟩
  | gt =>
    rw [Returns.of_pure h]
    exact .inr ⟨rfl, fun v => (hval v).le⟩
  | incomparable => exact absurd rfl hne

/-- The part behind a range ends where the whole does, unless the whole ends in the range. -/
theorem rightRemainder_cases {d : Dimension} {l u lower upper : LinExpr} {right : Interval}
    (h : (Interval.closed d l u).rightRemainder (.closed d lower upper) = .ok right) :
    (∃ first, right.bounds? = some (first, u)) ∨
      right.bounds? = none ∧ ∀ v, u.denote v ≤ upper.denote v := by
  obtain ⟨-, -, h⟩ := Returns.of_bind (returns_ok h)
  obtain ⟨order, ho, h⟩ := Returns.of_bind h
  obtain ⟨hcmp, hne⟩ := orderRemainder_ok (mapError_ok ho)
  have hval := LinExpr.compareBound_denote u upper
  rw [hcmp] at hval
  cases order with
  | gt =>
    obtain ⟨first, -, h⟩ := Returns.of_bind h
    rw [Returns.of_pure h]
    exact .inl ⟨first, rfl⟩
  | eq =>
    rw [Returns.of_pure h]
    exact .inr ⟨rfl, fun v => (hval v).le⟩
  | lt =>
    rw [Returns.of_pure h]
    exact .inr ⟨rfl, fun v => (hval v).le⟩
  | incomparable => exact absurd rfl hne

def CoversLeft (d : Dimension) (l lower : LinExpr) : Option Interval → Prop
  | some i => (∃ name thickness, i.dim = .sub name d (.left thickness)) ∧ ∀ v p, i.Covers v p ↔
      d.endpoint v .lower + l.denote v ≤ p ∧ p < d.endpoint v .lower + lower.denote v
  | none => ∀ v, lower.denote v ≤ l.denote v

def CoversRight (d : Dimension) (u upper : LinExpr) : Option Interval → Prop
  | some i => (∃ name thickness, i.dim = .sub name d (.right thickness)) ∧ ∀ v p, i.Covers v p ↔
      d.endpoint v .upper + upper.denote v < p ∧ p ≤ d.endpoint v .upper + u.denote v
  | none => ∀ v, u.denote v ≤ upper.denote v

structure Retargeted (d : Dimension) (e : Equation) (whole : Interval)
    (q : Interval × Equation) : Prop where
  closed : q.1.isNull = false
  retarget : retarget e whole d q.1 = .ok q.2

section
variable {d : Dimension} {m : Middle} {known known' : SideSlabs} {e : Equation}
  {l u lower upper : LinExpr} {out : List Equation}

theorem splitLeft_covers (hm : m.interval = .closed d lower upper) (hlower : m.lower = lower)
    (hknown : Noted d .left known)
    (h : returns (splitLeft d m known e (.closed d l u)) (out, known')) :
    Noted d .left known' ∧ ∃ left? : Option (Interval × Equation),
      out = left?.toList.map Prod.snd ∧ (∀ q ∈ left?, Retargeted d e (.closed d l u) q) ∧
      CoversLeft d l lower (left?.map Prod.fst) := by
  obtain ⟨left, hl, h⟩ := Returns.of_bind h
  have hl := returns_lift hl
  rw [hm] at hl
  rcases leftRemainder_cases hl with ⟨last, hb⟩ | ⟨hb, hle⟩
  · rw [hb] at h
    obtain ⟨thickness, ht, h⟩ := Returns.of_bind h
    obtain ⟨⟨dim, known''⟩, hs, h⟩ := Returns.of_bind h
    obtain ⟨part, hp, h⟩ := Returns.of_bind h
    cases Returns.of_pure h
    obtain ⟨⟨name, rfl⟩, hknown'⟩ := sideSlab_noted hknown hs
    have hthick : ∀ v, thickness.denote v = lower.denote v - l.denote v := by
      rw [← hlower]
      exact LinExpr.sub_denote (returns_lift ht)
    refine ⟨hknown', some (.closed (.sub name d (.left thickness)) l l, part), rfl, ?_,
      ⟨name, thickness, rfl⟩, fun v p => ?_⟩
    · rintro q ⟨⟩
      exact ⟨rfl, returns_lift hp⟩
    · simp only [Interval.Covers, Dimension.endpoint, hthick]
      omega
  · rw [hb] at h
    cases Returns.of_pure h
    exact ⟨hknown, none, rfl, by simp, hle⟩

theorem splitRight_covers (hm : m.interval = .closed d lower upper) (hupper : m.upper = upper)
    (hknown : Noted d .right known)
    (h : returns (splitRight d m known e (.closed d l u)) (out, known')) :
    Noted d .right known' ∧ ∃ right? : Option (Interval × Equation),
      out = right?.toList.map Prod.snd ∧ (∀ q ∈ right?, Retargeted d e (.closed d l u) q) ∧
      CoversRight d u upper (right?.map Prod.fst) := by
  obtain ⟨right, hr, h⟩ := Returns.of_bind h
  have hr := returns_lift hr
  rw [hm] at hr
  rcases rightRemainder_cases hr with ⟨first, hb⟩ | ⟨hb, hle⟩
  · rw [hb] at h
    obtain ⟨thickness, ht, h⟩ := Returns.of_bind h
    obtain ⟨⟨dim, known''⟩, hs, h⟩ := Returns.of_bind h
    obtain ⟨part, hp, h⟩ := Returns.of_bind h
    cases Returns.of_pure h
    obtain ⟨⟨name, rfl⟩, hknown'⟩ := sideSlab_noted hknown hs
    have hthick : ∀ v, thickness.denote v = u.denote v - upper.denote v := by
      rw [← hupper]
      exact LinExpr.sub_denote (returns_lift ht)
    refine ⟨hknown', some (.closed (.sub name d (.right thickness)) u u, part), rfl, ?_,
      ⟨name, thickness, rfl⟩, fun v p => ?_⟩
    · rintro q ⟨⟩
      exact ⟨rfl, returns_lift hp⟩
    · simp only [Interval.Covers, Dimension.endpoint, hthick]
      omega
  · rw [hb] at h
    cases Returns.of_pure h
    exact ⟨hknown, none, rfl, by simp, hle⟩

end

def Spans (d middle : Dimension) (lower upper : LinExpr) : Prop :=
  ∃ name negated, middle = .sub name d (.middle lower negated) ∧
    ∀ v, negated.denote v = -upper.denote v

theorem Spans.covers {d middle : Dimension} {lower upper : LinExpr}
    (h : Spans d middle lower upper) (v : Valuation) (p : Int) :
    (Interval.closed middle .zero .zero).Covers v p ↔
      d.endpoint v .lower + lower.denote v ≤ p ∧ p ≤ d.endpoint v .upper + upper.denote v := by
  obtain ⟨name, negated, rfl, hneg⟩ := h
  have hzero : LinExpr.zero.denote v = 0 := rfl
  simp only [Interval.Covers, Dimension.endpoint, hneg, hzero]
  omega

/-- The parts of a sibling: one before the common range unless there is nothing before, one over
the middle slab, and one behind the range unless there is nothing behind. -/
structure Cut (d middle : Dimension) (lower upper : LinExpr) (e : Equation) (whole : Interval)
    (pieces : List (Interval × Equation)) : Prop where
  arranged : ∃ l u, whole = .closed d l u ∧ ∃ left? right? : Option (Interval × Equation),
    CoversLeft d l lower (left?.map Prod.fst) ∧ CoversRight d u upper (right?.map Prod.fst) ∧
    ∃ centre, pieces = left?.toList ++ (.closed middle .zero .zero, centre) :: right?.toList
  moved : ∀ q ∈ pieces, Piece e d q.1 q.2

/-- The intervals cover the points of the whole, and no point twice. -/
structure Partition (v : Valuation) (whole : Interval) (parts : List Interval) : Prop where
  union : ∀ p, whole.Covers v p ↔ ∃ i ∈ parts, i.Covers v p
  disjoint : parts.Pairwise fun i j => ∀ p, i.Covers v p → ¬j.Covers v p

/-- The common range is not shorter than empty: what is before it and what is behind do not
overlap. -/
def Fits (d : Dimension) (lower upper : LinExpr) (v : Valuation) : Prop :=
  d.endpoint v .lower + lower.denote v ≤ d.endpoint v .upper + upper.denote v + 1

instance (d : Dimension) (lower upper : LinExpr) (v : Valuation) :
    Decidable (Fits d lower upper v) :=
  inferInstanceAs (Decidable (_ ≤ _))

theorem CoversLeft.iff {d : Dimension} {l lower : LinExpr} {left? : Option Interval}
    (h : CoversLeft d l lower left?) (v : Valuation) (p : Int) :
    (∃ i ∈ left?.toList, i.Covers v p) ↔
      d.endpoint v .lower + l.denote v ≤ p ∧ p < d.endpoint v .lower + lower.denote v := by
  cases left? with
  | none =>
    have hle := h v
    simp only [Option.toList_none, List.not_mem_nil, false_and, exists_false, false_iff]
    omega
  | some i => simpa using h.2 v p

theorem CoversRight.iff {d : Dimension} {u upper : LinExpr} {right? : Option Interval}
    (h : CoversRight d u upper right?) (v : Valuation) (p : Int) :
    (∃ i ∈ right?.toList, i.Covers v p) ↔
      d.endpoint v .upper + upper.denote v < p ∧ p ≤ d.endpoint v .upper + u.denote v := by
  cases right? with
  | none =>
    have hle := h v
    simp only [Option.toList_none, List.not_mem_nil, false_and, exists_false, false_iff]
    omega
  | some i => simpa using h.2 v p

/-- What is before, in and behind the common range makes up the whole. -/
theorem partition_of_covers {d middle : Dimension} {l u lower upper : LinExpr} {v : Valuation}
    {left? right? : Option Interval} (hl : l.denote v ≤ lower.denote v)
    (hu : upper.denote v ≤ u.denote v) (hfits : Fits d lower upper v)
    (hleft : CoversLeft d l lower left?) (hmiddle : Spans d middle lower upper)
    (hright : CoversRight d u upper right?) :
    Partition v (.closed d l u)
      (left?.toList ++ .closed middle .zero .zero :: right?.toList) := by
  unfold Fits at hfits
  refine ⟨fun p => ?_, List.pairwise_append.mpr ⟨?_, List.pairwise_cons.mpr ⟨?_, ?_⟩, ?_⟩⟩
  · have hparts : (∃ i ∈ left?.toList ++ .closed middle .zero .zero :: right?.toList,
          i.Covers v p) ↔
        (∃ i ∈ left?.toList, i.Covers v p) ∨ (Interval.closed middle .zero .zero).Covers v p ∨
          ∃ i ∈ right?.toList, i.Covers v p := by
      simp only [List.mem_append, List.mem_cons, or_and_right, exists_or, exists_eq_left]
    rw [hparts, hleft.iff, hmiddle.covers, hright.iff, Interval.Covers]
    omega
  · cases left? <;> simp
  · intro j hj p hp hjp
    have hrp := (hright.iff v p).mp ⟨j, hj, hjp⟩
    have hmp := (hmiddle.covers v p).mp hp
    omega
  · cases right? <;> simp
  · intro i hi j hj p hp hjp
    have hlp := (hleft.iff v p).mp ⟨i, hi, hp⟩
    rcases List.mem_cons.mp hj with rfl | hj
    · have hmp := (hmiddle.covers v p).mp hjp
      omega
    · have hrp := (hright.iff v p).mp ⟨j, hj, hjp⟩
      omega

/-- The parts of a sibling partition it. -/
theorem Cut.partition {d middle : Dimension} {lower upper : LinExpr} {e : Equation}
    {whole : Interval} {pieces : List (Interval × Equation)}
    (h : Cut d middle lower upper e whole pieces) (hmiddle : Spans d middle lower upper)
    (hencl : Encloses whole lower upper) {v : Valuation} (hfits : Fits d lower upper v) :
    Partition v whole (pieces.map Prod.fst) := by
  obtain ⟨l, u, rfl, left?, right?, hleft, hright, centre, rfl⟩ := h.arranged
  obtain ⟨l', u', heq, hle⟩ := hencl
  cases heq
  have hpart := partition_of_covers (hle v).1 (hle v).2 hfits hleft hmiddle hright
  rw [List.map_append, List.map_cons]
  cases left? <;> cases right? <;> exact hpart

structure Retargets (d middle : Dimension) (lower upper : LinExpr) (e : Equation) (whole : Interval)
    (pieces : List (Interval × Equation)) : Prop where
  cut : Cut d middle lower upper e whole pieces
  retargeted : ∀ q ∈ pieces, Retargeted d e whole q

/-- Every sibling is cut in turn, and all share the middle slab. -/
theorem splitAll_retargets {d : Dimension} {m : Middle} {lower upper : LinExpr}
    {siblings : List (Equation × Interval)}
    (h : returns (splitAll d m lefts rights siblings) out)
    (hm : m.interval = .closed d lower upper) (hlower : m.lower = lower) (hupper : m.upper = upper)
    (hsiblings : ∀ s ∈ siblings, s.2.dim = d ∧ Encloses s.2 lower upper)
    (hlefts : Noted d .left lefts) (hrights : Noted d .right rights) :
    ∃ groups : List (List (Interval × Equation)), out = groups.flatten.map Prod.snd ∧
      List.Forall₂ (fun s pieces => Retargets d m.dim lower upper s.1 s.2 pieces)
        siblings groups := by
  induction siblings generalizing lefts rights out with
  | nil =>
    rw [Returns.of_pure h]
    exact ⟨[], rfl, .nil⟩
  | cons s siblings ih =>
    obtain ⟨e, i⟩ := s
    obtain ⟨⟨hi, hencl⟩, hothers⟩ := List.forall_mem_cons.mp hsiblings
    obtain ⟨l, u, hclosed⟩ := hencl.closed
    dsimp only at hi hclosed
    rw [hi] at hclosed
    subst hclosed
    obtain ⟨⟨left, lefts'⟩, hl, h⟩ := Returns.of_bind h
    obtain ⟨centre, hc, h⟩ := Returns.of_bind h
    obtain ⟨⟨right, rights'⟩, hr, h⟩ := Returns.of_bind h
    obtain ⟨rest, hrest, h⟩ := Returns.of_bind h
    obtain ⟨hlefts', left?, rfl, hleft, hcl⟩ := splitLeft_covers hm hlower hlefts hl
    obtain ⟨hrights', right?, rfl, hright, hcr⟩ := splitRight_covers hm hupper hrights hr
    obtain ⟨groups, rfl, hgroups⟩ := ih hrest hothers hlefts' hrights'
    have hpieces : ∀ q ∈ left?.toList ++ (.closed m.dim .zero .zero, centre) :: right?.toList,
        Retargeted d e (.closed d l u) q := by
      intro q hq
      rcases List.mem_append.mp hq with hq | hq
      · exact hleft q (Option.mem_toList.mp hq)
      · rcases List.mem_cons.mp hq with rfl | hq
        · exact ⟨rfl, returns_lift hc⟩
        · exact hright q (Option.mem_toList.mp hq)
    rw [Returns.of_pure h]
    refine ⟨_ :: groups, by simp, .cons ⟨⟨⟨l, u, rfl, left?, right?, hcl, hcr, centre, rfl⟩, ?_⟩,
      hpieces⟩ hgroups⟩
    exact fun q hq => retarget_piece (hpieces q hq).retarget

/-- Where siblings have a range in common, all of them are split around it. -/
theorem decompose_splits {siblings : List Equation} {d : Dimension} {intervals : List Interval}
    {lower upper : LinExpr} {parts : List Equation}
    (hover : List.Forall₂ (fun e i => intervalOver d e = .ok i) siblings intervals)
    (hcommon : commonInterval? intervals = .ok (some (.closed d lower upper)))
    (h : returns (decompose siblings d) parts) :
    ∃ name negated, returns (freshName d .middle) name ∧ upper.neg = .ok negated ∧
      returns (splitAll d ⟨.closed d lower upper, lower, upper,
        .sub name d (.middle lower negated)⟩ [] [] (siblings.zip intervals)) parts := by
  obtain ⟨found, hfound, h⟩ := Returns.of_bind h
  have hfound := (returns_mapM hfound).imp fun e i hi => mapError_ok (returns_lift hi)
  have hsame : found = intervals := by
    refine List.right_unique_forall₂' (fun e i j hi hj => ?_) hfound hover
    exact Except.ok.inj (hi.symm.trans hj)
  subst hsame
  obtain ⟨common, hc, h⟩ := Returns.of_bind h
  have hc := mapError_ok (returns_lift hc)
  rw [hcommon] at hc
  cases hc
  obtain ⟨name, hname, h⟩ := Returns.of_bind h
  obtain ⟨negated, hneg, h⟩ := Returns.of_bind h
  obtain ⟨out, hout, h⟩ := Returns.of_bind h
  obtain ⟨-, -, h⟩ := Returns.of_bind h
  rw [Returns.of_pure h]
  exact ⟨name, negated, hname, returns_lift hneg, hout⟩

/-- Then all of them are retargeted in turn, around one middle slab. -/
theorem decompose_retargets {siblings : List Equation} {d : Dimension} {intervals : List Interval}
    {lower upper : LinExpr} {parts : List Equation}
    (hover : List.Forall₂ (fun e i => intervalOver d e = .ok i) siblings intervals)
    (hcommon : commonInterval? intervals = .ok (some (.closed d lower upper)))
    (h : returns (decompose siblings d) parts) :
    ∃ middle : Dimension, ∃ groups : List (List (Interval × Equation)),
      parts = groups.flatten.map Prod.snd ∧ Spans d middle lower upper ∧
      List.Forall₂ (fun s pieces => Retargets d middle lower upper s.1 s.2 pieces)
        (siblings.zip intervals) groups := by
  obtain ⟨name, negated, -, hneg, hout⟩ := decompose_splits hover hcommon h
  have hsiblings : ∀ s ∈ siblings.zip intervals, s.2.dim = d ∧ Encloses s.2 lower upper := by
    intro s hs
    have hin := (List.of_mem_zip hs).2
    obtain ⟨e, -, he⟩ := exists_of_forall₂ hover.flip hin
    exact ⟨dim_of_intervalOver he, common_enclosed hcommon s.2 hin⟩
  obtain ⟨groups, rfl, hgroups⟩ := splitAll_retargets hout rfl rfl rfl hsiblings
    (List.forall_mem_nil _) (List.forall_mem_nil _)
  exact ⟨_, groups, rfl, ⟨name, negated, rfl, LinExpr.neg_denote hneg⟩, hgroups⟩

theorem decompose_cuts {siblings : List Equation} {d : Dimension} {intervals : List Interval}
    {lower upper : LinExpr} {parts : List Equation}
    (hover : List.Forall₂ (fun e i => intervalOver d e = .ok i) siblings intervals)
    (hcommon : commonInterval? intervals = .ok (some (.closed d lower upper)))
    (h : returns (decompose siblings d) parts) :
    ∃ middle : Dimension, ∃ groups : List (List (Interval × Equation)),
      parts = groups.flatten.map Prod.snd ∧ Spans d middle lower upper ∧
      List.Forall₂ (fun s pieces => Cut d middle lower upper s.1 s.2 pieces)
        (siblings.zip intervals) groups := by
  obtain ⟨middle, groups, hparts, hspans, hgroups⟩ := decompose_retargets hover hcommon h
  exact ⟨middle, groups, hparts, hspans, hgroups.imp fun _ _ hs => hs.cut⟩

/-- Remainder decomposition is an exact partition. Where siblings have a range of the dimension in
common, each of them becomes an optional left, a middle and an optional right part, in the order of
the siblings and all over one middle slab. The parts of a sibling cover the points of its interval
and no point twice, and at a point of its slab a part has the subscripts that the sibling had at
that point of the dimension. -/
theorem decompose_partition {siblings : List Equation} {d : Dimension} {intervals : List Interval}
    {lower upper : LinExpr} {s s' : State} {parts : List Equation}
    (hover : siblings.mapM (intervalOver d) = .ok intervals)
    (hcommon : commonInterval? intervals = .ok (some (.closed d lower upper)))
    (h : (decompose siblings d).run s = .ok (parts, s')) :
    ∃ middle : Dimension, ∃ groups : List (List (Interval × Equation)),
      parts = groups.flatten.map Prod.snd ∧ Spans d middle lower upper ∧
      List.Forall₂ (fun sibling pieces =>
        Cut d middle lower upper sibling.1 sibling.2 pieces ∧
        ∀ v, Fits d lower upper v → Partition v sibling.2 (pieces.map Prod.fst))
        (siblings.zip intervals) groups ∧
      ∀ piece ∈ groups.flatten, ∀ first last, piece.1.extent = .ok (some (first, last)) →
        ∀ v p, piece.1.Covers v p ↔ first.denote v ≤ p ∧ p ≤ last.denote v := by
  obtain ⟨middle, groups, hparts, hmiddle, hcuts⟩ := decompose_cuts
    (returns_mapM (returns_ok hover)) hcommon ⟨s, s', h⟩
  refine ⟨middle, groups, hparts, hmiddle, ?_,
    fun piece _ first last hextent v p => piece.1.covers_of_extent hextent v p⟩
  refine (List.forall₂_iff_zip.mpr ⟨hcuts.length_eq, fun hin => ?_⟩)
  have hcut := (List.forall₂_iff_zip.mp hcuts).2 hin
  have hencl := common_enclosed hcommon _ (List.of_mem_zip (List.of_mem_zip hin).1).2
  exact ⟨hcut, fun v hfits => hcut.partition hmiddle hencl hfits⟩

def staggered : List Equation :=
  let row (array : String) (lower upper : Int64) : Equation :=
    ⟨.around "x" array 0, .int 1,
      .ofIntervals (.ofIntervals [.closed (.basic "x") (.int lower) (.int upper)]), .empty⟩
  [row "u" (-2) 1, row "w" (-1) 2]

theorem decompose_partition_staggered :
    ∃ parts s', (decompose staggered (.basic "x")).run .empty = .ok (parts, s') ∧
      parts.map (fun e => (e.write, e.ispace.dimensions.map Dimension.name)) =
        [("u", ["x_lr0"]), ("u", ["x_mr0"]), ("w", ["x_mr0"]), ("w", ["x_rr0"])] ∧
      ∃ groups : List (List (Interval × Equation)), parts = groups.flatten.map Prod.snd ∧
        List.Forall₂ (fun whole pieces => ∀ v : Valuation, v "x_m" + -1 ≤ v "x_M" + 1 + 1 →
            Partition v whole (pieces.map Prod.fst))
          [.closed (.basic "x") (.int (-2)) (.int 1), .closed (.basic "x") (.int (-1)) (.int 2)]
          groups := by
  have hread : ((decompose staggered (.basic "x")).run .empty).toOption.map
      (fun r => r.1.map fun e => (e.write, e.ispace.dimensions.map Dimension.name)) =
        some [("u", ["x_lr0"]), ("u", ["x_mr0"]), ("w", ["x_mr0"]), ("w", ["x_rr0"])] := by
    decide +kernel
  obtain ⟨⟨parts, s'⟩, hrun, hparts⟩ := exists_of_toOption hread
  have hover : staggered.mapM (intervalOver (.basic "x")) = .ok
      [.closed (.basic "x") (.int (-2)) (.int 1), .closed (.basic "x") (.int (-1)) (.int 2)] := rfl
  have hcommon : commonInterval?
      [.closed (.basic "x") (.int (-2)) (.int 1), .closed (.basic "x") (.int (-1)) (.int 2)] =
        .ok (some (.closed (.basic "x") (.int (-1)) (.int 1))) := rfl
  have hfits : ∀ v : Valuation, v "x_m" + -1 ≤ v "x_M" + 1 + 1 →
      Fits (.basic "x") (.int (-1)) (.int 1) v := by
    intro v hv
    rw [Fits, LinExpr.int_denote, LinExpr.int_denote]
    exact hv
  obtain ⟨middle, groups, hflat, -, hgroups, -⟩ := decompose_partition hover hcommon hrun
  refine ⟨parts, s', hrun, hparts, groups, hflat, ?_⟩
  obtain _ | ⟨⟨-, hfirst⟩, _ | ⟨⟨-, hsecond⟩, ⟨⟩⟩⟩ := hgroups
  exact .cons (fun v hv => hfirst v (hfits v hv))
    (.cons (fun v hv => hsecond v (hfits v hv)) .nil)

end Remainder
end LoopNest
