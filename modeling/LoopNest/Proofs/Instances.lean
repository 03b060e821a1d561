import LoopNest.Dependence
import LoopNest.Proofs.AccessDistance
import Mathlib.Data.List.Basic

namespace LoopNest

/-- The values of parameters and index variables. -/
abbrev Valuation := String → Int

namespace Dimension

def IsBasic (d : Dimension) : Prop := ∃ name, d = .basic name

def endpoint (v : Valuation) : Dimension → Side → Int
  | basic name, .lower => v (name ++ "_m")
  | basic name, .upper => v (name ++ "_M")
  | block _ _ min _ _, .lower => min.denote v
  | block _ _ _ max _, .upper => max.denote v
  | sub _ parent (.left _), .lower => parent.endpoint v .lower
  | sub _ parent (.left thickness), .upper => parent.endpoint v .lower + thickness.denote v - 1
  | sub _ parent (.middle left _), .lower => parent.endpoint v .lower + left.denote v
  | sub _ parent (.middle _ right), .upper => parent.endpoint v .upper - right.denote v
  | sub _ parent (.right thickness), .lower => parent.endpoint v .upper - thickness.denote v + 1
  | sub _ parent (.right _), .upper => parent.endpoint v .upper

/-- The bounds of a dimension denote its endpoints. -/
theorem bound_denote {d : Dimension} {side : Side} {e : LinExpr} (h : d.bound side = .ok e)
    (v : Valuation) : e.denote v = d.endpoint v side := by
  induction d generalizing side e with
  | basic name =>
    cases side <;> cases h <;> exact LinExpr.denote_symbol _ v
  | block name parent min max step _ =>
    cases side <;> cases h <;> rfl
  | sub name parent region ih =>
    have hone : (1 : Int64).toInt = 1 := rfl
    cases region with
    | left thickness =>
      cases side with
      | lower => exact ih h
      | upper =>
        obtain ⟨low, hlow, h⟩ := Returns.of_bind (returns_ok h)
        obtain ⟨sum, hsum, h⟩ := Returns.of_bind h
        rw [LinExpr.subInt_denote h, LinExpr.add_denote hsum, ih hlow, hone]
        rfl
    | middle left right =>
      cases side with
      | lower =>
        obtain ⟨low, hlow, h⟩ := Returns.of_bind (returns_ok h)
        rw [LinExpr.add_denote h, ih hlow]
        rfl
      | upper =>
        obtain ⟨high, hhigh, h⟩ := Returns.of_bind (returns_ok h)
        rw [LinExpr.sub_denote h, ih hhigh]
        rfl
    | right thickness =>
      cases side with
      | lower =>
        obtain ⟨high, hhigh, h⟩ := Returns.of_bind (returns_ok h)
        obtain ⟨difference, hdiff, h⟩ := Returns.of_bind h
        rw [LinExpr.addInt_denote h, LinExpr.sub_denote hdiff, ih hhigh, hone]
        rfl
      | upper => exact ih h

theorem IsBasic.sharesRoot_iff {d e : Dimension} (hd : d.IsBasic) (he : e.IsBasic) :
    d.sharesRoot e = true ↔ d = e := by
  obtain ⟨n, rfl⟩ := hd
  obtain ⟨k, rfl⟩ := he
  simp [sharesRoot, root]

theorem IsBasic.eq_of_name {d e : Dimension} (hd : d.IsBasic) (he : e.IsBasic)
    (h : d.name = e.name) : d = e := by
  obtain ⟨n, rfl⟩ := hd
  obtain ⟨k, rfl⟩ := he
  exact congrArg basic h

end Dimension

def Interval.InRange (v : Valuation) : Interval → Prop
  | .closed d lower upper =>
    d.endpoint v .lower + lower.denote v ≤ v d.name ∧
      v d.name ≤ d.endpoint v .upper + upper.denote v
  | .null _ => False

namespace IterationInterval

/-- The position of a point along the traversal; a backward loop counts down. -/
def along (l : IterationInterval) (p : Valuation) : Int :=
  match l.direction with
  | .forward => p l.dim.name
  | .backward => -p l.dim.name

theorem along_eq_iff {l : IterationInterval} {p q : Valuation} :
    l.along p = l.along q ↔ p l.dim.name = q l.dim.name := by
  unfold along
  split <;> omega

end IterationInterval

/-- The first point comes strictly after the second when the loops are traversed. -/
def Later : List IterationInterval → Valuation → Valuation → Prop
  | [], _, _ => False
  | l :: rest, p, q => l.along q < l.along p ∨ l.along p = l.along q ∧ Later rest p q

def Agree (dims : List Dimension) (p q : Valuation) : Prop := ∀ d ∈ dims, p d.name = q d.name

/-- One point comes after another exactly when it is ahead on the first loop that tells them
apart. -/
theorem later_iff {loops : List IterationInterval} {p q : Valuation} :
    Later loops p q ↔ ∃ outer l inner, loops = outer ++ l :: inner ∧
      Agree (outer.map (·.dim)) p q ∧ l.along q < l.along p := by
  induction loops with
  | nil => simp [Later]
  | cons l rest ih =>
    constructor
    · intro h
      rcases h with hlt | ⟨heq, hlater⟩
      · exact ⟨[], l, rest, rfl, by simp [Agree], hlt⟩
      · obtain ⟨outer, l', inner, rfl, hagree, hlt⟩ := ih.mp hlater
        refine ⟨l :: outer, l', inner, rfl, ?_, hlt⟩
        rw [List.map_cons]
        exact List.forall_mem_cons.mpr ⟨IterationInterval.along_eq_iff.mp heq, hagree⟩
    · intro h
      obtain ⟨outer, l', inner, heq, hagree, hlt⟩ := h
      cases outer with
      | nil =>
        obtain ⟨rfl, rfl⟩ := List.cons.inj heq
        exact .inl hlt
      | cons o outer =>
        obtain ⟨rfl, rfl⟩ := List.cons.inj heq
        obtain ⟨ho, hagree⟩ := List.forall_mem_cons.mp hagree
        exact .inr ⟨IterationInterval.along_eq_iff.mpr ho,
          ih.mpr ⟨outer, l', inner, rfl, hagree, hlt⟩⟩

/-- Every access of an equation, marked if it is the write. -/
def Equation.touches (e : Equation) : List (Access × Bool) :=
  (e.lhs, true) :: e.rhs.accesses.map (·, false)

theorem IterationSpace.loops_map_dim (s : IterationSpace) :
    s.loops.map (·.dim) = s.dimensions := by
  simp only [loops, dimensions, IntervalGroup.dimensions, List.map_map]
  rfl

theorem IterationSpace.loops_map_interval (s : IterationSpace) :
    s.loops.map (·.interval) = s.intervals.intervals := by
  simp [loops, Function.comp_def]

namespace Cluster

/-- A point of the nest around a cluster: the parameters have their values and every index lies in
the range of its loop. -/
structure Point (c : Cluster) (v p : Valuation) : Prop where
  params : ∀ s, (∀ d ∈ c.dimensions, d.name ≠ s) → p s = v s
  inRange : ∀ i ∈ c.ispace.intervals.intervals, i.InRange p

def IsBasic (c : Cluster) : Prop := ∀ d ∈ c.dimensions, d.IsBasic

theorem loops_map_dim (c : Cluster) : c.loops.map (·.dim) = c.dimensions :=
  c.ispace.loops_map_dim

theorem length_loops (c : Cluster) : c.loops.length = c.dimensions.length := by
  rw [← loops_map_dim, List.length_map]

theorem dimensions_eq_of_loops {a b : Cluster} (h : a.loops = b.loops) :
    a.dimensions = b.dimensions := by
  rw [← loops_map_dim, ← loops_map_dim, h]

theorem dim_mem_dimensions {c : Cluster} {l : IterationInterval} (h : l ∈ c.loops) :
    l.dim ∈ c.dimensions := by
  rw [← loops_map_dim]
  exact List.mem_map.mpr ⟨l, h, rfl⟩

end Cluster

def Access.around (x array : String) (offset : Int64) : Access :=
  ⟨array, [⟨offset, .singleton x 1⟩]⟩

theorem Access.around_element (x array : String) (offset : Int64) (v : Valuation) :
    (Access.around x array offset).element v = (array, [offset.toInt + v x]) := by
  have hone : (1 : Int64).toInt = 1 := rfl
  have h : (Access.around x array offset).element v =
      (array, [offset.toInt + ((1 : Int64).toInt * v x + 0)]) := rfl
  rw [h, hone, Int.one_mul, Int.add_zero]

def Access.scalar (array : String) : Access := ⟨array, [.zero]⟩

namespace Cluster

def single (x : String) (lhs : Access) (rhs : Expr) : Cluster :=
  .ofEquation ⟨lhs, rhs, .ofIntervals (.ofIntervals [.closed (.basic x) .zero .zero]), .empty⟩
    .empty

def tagged (c : Cluster) (d : Dimension) (tags : List Property) : Cluster :=
  { c with properties := c.properties.tag d tags }

/-- `s[0] = 1` in forward loops along the whole of the dimensions, outermost first, with chains and
tags. -/
def along (dims : List Dimension) (chains : List (List Dimension))
    (tags : List (Dimension × List Property)) : Cluster :=
  let loops := dims.map fun d => Interval.closed d .zero .zero
  tags.foldl (fun c t => c.tagged t.1 t.2)
    (.ofEquation ⟨.scalar "s", .int 1, .ofIntervals ⟨loops, .ofList chains⟩, .empty⟩ .empty)

def reversed (c : Cluster) : Cluster :=
  { c with ispace := { c.ispace with directions := .ofList (c.dimensions.map (·, .backward)) } }

def writeThenRead (tags : List Property) : List Cluster :=
  [(single "x" (.around "x" "u" 0) (.int 1)).tagged (.basic "x") tags,
    (single "x" (.around "x" "w" 0) (.access (.around "x" "u" 0))).tagged (.basic "x") tags]

theorem single_isBasic (x : String) (lhs : Access) (rhs : Expr) : (single x lhs rhs).IsBasic := by
  intro d hd
  have hd : d ∈ [Dimension.basic x] := hd
  exact ⟨x, List.mem_singleton.mp hd⟩

theorem single_point {x : String} {lhs : Access} {rhs : Expr} (hp : ∀ s, s ≠ x → p s = v s)
    (hlow : v (x ++ "_m") ≤ p x) (hhigh : p x ≤ v (x ++ "_M")) :
    (single x lhs rhs).Point v p := by
  have hx : Dimension.basic x ∈ (single x lhs rhs).dimensions := List.mem_singleton.mpr rfl
  refine ⟨fun s hs => hp s (hs _ hx).symm, fun i hi => ?_⟩
  have hi : i ∈ [Interval.closed (.basic x) .zero .zero] := hi
  obtain rfl := List.mem_singleton.mp hi
  have h0 : LinExpr.zero.denote p = 0 := rfl
  have hparam : ∀ suffix : String, suffix.length = 2 → p (x ++ suffix) = v (x ++ suffix) := by
    intro suffix hlen
    refine hp _ fun he => ?_
    have hlen' := congrArg String.length he
    simp only [String.length_append] at hlen'
    omega
  simp only [Interval.InRange, Dimension.endpoint, Dimension.name, h0, Int.add_zero]
  rw [hparam "_m" rfl, hparam "_M" rfl]
  exact ⟨hlow, hhigh⟩

theorem IsBasic.tagged {c : Cluster} (h : c.IsBasic) (d : Dimension) (tags : List Property) :
    (c.tagged d tags).IsBasic := h

theorem Point.tagged {c : Cluster} (h : c.Point v p) (d : Dimension) (tags : List Property) :
    (c.tagged d tags).Point v p := ⟨h.params, h.inRange⟩

end Cluster

def Conflict (a b : Cluster) (x y : Access) : Prop :=
  ∃ wx wy, (x, wx) ∈ a.equations.flatMap Equation.touches ∧
    (y, wy) ∈ b.equations.flatMap Equation.touches ∧ (wx = true ∨ wy = true)

theorem Conflict.mem_conflictingAccesses {a b : Cluster} {x y : Access} (h : Conflict a b x y) :
    ∃ e ∈ a.equations, ∃ f ∈ b.equations, (x, y) ∈ Distance.conflictingAccesses e f := by
  obtain ⟨wx, wy, hx, hy, hw⟩ := h
  obtain ⟨e, he, hx⟩ := List.mem_flatMap.mp hx
  obtain ⟨f, hf, hy⟩ := List.mem_flatMap.mp hy
  refine ⟨e, he, f, hf, ?_⟩
  simp only [Equation.touches, List.mem_cons, List.mem_map, Prod.mk.injEq] at hx hy
  simp only [Distance.conflictingAccesses, List.mem_cons, List.mem_append, List.mem_map,
    Prod.mk.injEq]
  rcases hx with ⟨rfl, rfl⟩ | ⟨r, hr, rfl, rfl⟩ <;> rcases hy with ⟨rfl, rfl⟩ | ⟨s, hs, rfl, rfl⟩
  · exact .inl ⟨rfl, rfl⟩
  · exact .inr (.inl ⟨s, hs, rfl, rfl⟩)
  · exact .inr (.inr ⟨r, hr, rfl, rfl⟩)
  · simp at hw

/-- The pairs of accesses that dependences are looked for in are in conflict. -/
theorem conflict_of_mem_conflictingAccesses {a b : Cluster} (he : e ∈ a.equations)
    (hf : f ∈ b.equations) (h : (x, y) ∈ Distance.conflictingAccesses e f) : Conflict a b x y := by
  have hx : ∀ wx, (x, wx) ∈ e.touches → (x, wx) ∈ a.equations.flatMap Equation.touches :=
    fun wx h => List.mem_flatMap.mpr ⟨e, he, h⟩
  have hy : ∀ wy, (y, wy) ∈ f.touches → (y, wy) ∈ b.equations.flatMap Equation.touches :=
    fun wy h => List.mem_flatMap.mpr ⟨f, hf, h⟩
  simp only [Distance.conflictingAccesses, List.mem_cons, List.mem_append, List.mem_map,
    Prod.mk.injEq] at h
  simp only [Equation.touches, List.mem_cons, List.mem_map, Prod.mk.injEq] at hx hy
  rcases h with ⟨rfl, rfl⟩ | ⟨r, hr, rfl, rfl⟩ | ⟨r, hr, rfl, rfl⟩
  · exact ⟨true, true, hx _ (.inl ⟨rfl, rfl⟩), hy _ (.inl ⟨rfl, rfl⟩), .inl rfl⟩
  · exact ⟨true, false, hx _ (.inl ⟨rfl, rfl⟩), hy _ (.inr ⟨r, hr, rfl, rfl⟩), .inl rfl⟩
  · exact ⟨false, true, hx _ (.inr ⟨r, hr, rfl, rfl⟩), hy _ (.inl ⟨rfl, rfl⟩), .inr rfl⟩

/-- Instances at two points touch one element through conflicting accesses. -/
structure Cluster.Meet (a b : Cluster) (v p q : Valuation) (x y : Access) : Prop where
  left : a.Point v p
  right : b.Point v q
  conflict : Conflict a b x y
  same : x.element p = y.element q

namespace Cluster

/-- An access that does not mention a symbol meets whatever the value of that symbol is. -/
theorem Meet.slide {a b : Cluster} (hm : a.Meet b v p q x y) (hx : ¬x.Mentions s)
    (hp : ∀ t, t ≠ s → p' t = p t) (hpoint : a.Point v p') : a.Meet b v p' q x y := by
  refine ⟨hpoint, hm.right, hm.conflict, ?_⟩
  rw [← hm.same]
  refine Access.element_congr fun t ht => hp t ?_
  rintro rfl
  exact hx ht

theorem Point.params_eq {a b : Cluster} (hp : a.Point v p) (hq : b.Point v q) (s : String)
    (hs : ∀ d ∈ a.dimensions ++ b.dimensions, d.name ≠ s) : p s = q s := by
  rw [hp.params s fun d hd => hs d (List.mem_append_left _ hd),
    hq.params s fun d hd => hs d (List.mem_append_right _ hd)]

end Cluster

end LoopNest
