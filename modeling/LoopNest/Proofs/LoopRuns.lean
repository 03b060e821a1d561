import LoopNest.Proofs.Instances
import LoopNest.Tree.Basic
import Mathlib.Data.Int.Range
import Mathlib.Tactic.Choose

namespace LoopNest

namespace Direction

def sign : Direction → Int
  | forward => 1
  | backward => -1

/-- The bound at which an index starts. -/
def near : Direction → Int → Int → Int
  | forward, lo, _ => lo
  | backward, _, hi => hi

/-- How far above the index of a tile, the first point of it, the traversal of the tile starts. -/
def lead : Direction → Int → Int
  | forward, _ => 0
  | backward, size => size - 1

theorem near_tile (dir : Direction) (i size : Int) :
    dir.near i (i + size - 1) = i + dir.lead size := by
  cases dir <;> simp only [near, lead] <;> ring

def walk (dir : Direction) (first : Int) (count : Nat) : List Int :=
  (List.range count).map fun k : Nat => first + dir.sign * k

theorem walk_backward (lo hi : Int) :
    backward.walk hi (hi - lo + 1).toNat = (Int.range lo (hi + 1)).reverse := by
  rw [walk, Int.range, show hi + 1 - lo = hi - lo + 1 by ring, ← List.map_reverse,
    List.range_eq_range', List.reverse_range', List.map_map, ← List.range_eq_range']
  refine List.map_congr_left fun k hk => ?_
  rw [List.mem_range] at hk
  simp only [sign, Function.comp_apply]
  omega

theorem walk_add (dir : Direction) (first shift : Int) (count : Nat) :
    dir.walk (first + shift) count = (dir.walk first count).map (· + shift) := by
  rw [walk, walk, List.map_map]
  refine List.map_congr_left fun k _ => ?_
  simp only [Function.comp_apply]
  ring

/-- Nested tiles are traversed from above their index on, unless they are single points. -/
theorem sum_lead_backward {sizes : List Int} (hpos : ∀ size ∈ sizes, 0 < size) :
    0 ≤ (sizes.map backward.lead).sum ∧
      ((sizes.map backward.lead).sum = 0 ↔ ∀ size ∈ sizes, size = 1) := by
  induction sizes with
  | nil => simp
  | cons size sizes ih =>
    obtain ⟨hsize, hpos⟩ := List.forall_mem_cons.mp hpos
    obtain ⟨hnonneg, hzero⟩ := ih hpos
    rw [List.map_cons, List.sum_cons, List.forall_mem_cons, ← hzero, lead]
    omega

/-- A range is moved unless it is empty or the distance is zero. -/
theorem range_map_add_iff (lo hi shift : Int) :
    (Int.range lo (hi + 1)).map (· + shift) = Int.range lo (hi + 1) ↔ hi < lo ∨ shift = 0 := by
  constructor
  · intro h
    refine or_iff_not_imp_left.mpr fun hne => ?_
    have hmem : ∀ i, lo ≤ i → i ≤ hi → lo ≤ i + shift ∧ i + shift < hi + 1 := by
      intro i hlo hhi
      rw [← Int.mem_range_iff, ← h]
      exact List.mem_map.mpr ⟨i, Int.mem_range_iff.mpr (by omega), rfl⟩
    obtain ⟨hlow, -⟩ := hmem lo (by omega) (by omega)
    obtain ⟨-, hhigh⟩ := hmem hi (by omega) (by omega)
    omega
  · rintro (hempty | rfl)
    · rw [Int.range, Int.toNat_of_nonpos (by omega)]
      rfl
    · simp

end Direction

namespace LoopHead

def scope (h : LoopHead) (v : Valuation) (i : Int) : Valuation := Function.update v h.dim.name i

def start (h : LoopHead) (v : Valuation) : Int :=
  match h.direction with
  | .forward => h.lower.denote v
  | .backward => h.upper.denote v

def Admits (h : LoopHead) (v : Valuation) (i : Int) : Prop :=
  match h.direction with
  | .forward => i ≤ h.upper.denote (h.scope v i)
  | .backward => h.lower.denote (h.scope v i) ≤ i

def next (h : LoopHead) (v : Valuation) (i : Int) : Int :=
  match h.direction with
  | .forward => i + h.step.denote (h.scope v i)
  | .backward => i - h.step.denote (h.scope v i)

/-- The values that the index takes from the given one on. It moves on by the step as long as it has
not passed the other bound; both are evaluated anew each time, with the index in scope. -/
inductive Iterates (h : LoopHead) (v : Valuation) : Int → List Int → Prop
  | stop {i : Int} (hi : ¬h.Admits v i) : Iterates h v i []
  | next {i : Int} {is : List Int} (hi : h.Admits v i) (hrest : Iterates h v (h.next v i) is) :
    Iterates h v i (i :: is)

end LoopHead

/-- The values of the names each time the body of nested loops runs. -/
def Runs : List LoopHead → Valuation → List Valuation → Prop
  | [], v, points => points = [v]
  | h :: inner, v, points => ∃ is runs, h.Iterates v (h.start v) is ∧
      List.Forall₂ (fun i run => Runs inner (h.scope v i) run) is runs ∧ points = runs.flatten

namespace LoopHead

variable {h : LoopHead} {v : Valuation}

theorem Iterates.unique {i : Int} {is js : List Int} (hi : h.Iterates v i is)
    (hj : h.Iterates v i js) : is = js := by
  induction hi generalizing js with
  | stop hstop =>
    cases hj with
    | stop _ => rfl
    | next hgo _ => exact absurd hgo hstop
  | next hgo _ ih =>
    cases hj with
    | stop hstop => exact absurd hgo hstop
    | next _ hrest => rw [ih hrest]

/-- A loop that takes the given steps visits where they lead. -/
theorem iterates_of_steps {n : Nat} {f : Nat → Int} (hgo : ∀ j < n, h.Admits v (f j))
    (hnext : ∀ j < n, h.next v (f j) = f (j + 1)) (hstop : ¬h.Admits v (f n)) :
    h.Iterates v (f 0) ((List.range n).map f) := by
  induction n generalizing f with
  | zero => exact .stop hstop
  | succ n ih =>
    rw [List.range_succ_eq_map, List.map_cons, List.map_map]
    refine .next (hgo 0 (Nat.succ_pos n)) ?_
    rw [hnext 0 (Nat.succ_pos n)]
    exact ih (f := fun j => f (j + 1)) (fun j hj => hgo _ (Nat.succ_lt_succ hj))
      (fun j hj => hnext _ (Nat.succ_lt_succ hj)) hstop

end LoopHead

theorem Runs.unique {heads : List LoopHead} {v : Valuation} {points points' : List Valuation}
    (h : Runs heads v points) (h' : Runs heads v points') : points = points' := by
  induction heads generalizing v points points' with
  | nil => exact Eq.trans h (Eq.symm h')
  | cons head inner ih =>
    obtain ⟨is, runs, his, hruns, rfl⟩ := h
    obtain ⟨js, runs', hjs, hruns', rfl⟩ := h'
    obtain rfl := his.unique hjs
    have hunique : Relator.RightUnique fun i run => Runs inner (head.scope v i) run :=
      fun _ _ _ => ih
    rw [List.right_unique_forall₂' hunique hruns hruns']

def AgreeOff (names : List String) (v w : Valuation) : Prop := ∀ s ∉ names, w s = v s

namespace LoopHead

def Spans (h : LoopHead) (names : List String) (v : Valuation) (lo hi : Int) : Prop :=
  ∀ w, AgreeOff names v w → h.lower.denote w = lo ∧ h.upper.denote w = hi

def Steps (h : LoopHead) (names : List String) (v : Valuation) (size : Int) : Prop :=
  ∀ w, AgreeOff names v w → h.step.denote w = size

structure Tiles (h outer : LoopHead) : Prop where
  lower : ∀ w : Valuation, h.lower.denote w = w outer.dim.name
  upper : ∀ w : Valuation, h.upper.denote w = w outer.dim.name + outer.step.denote w - 1
  direction : h.direction = outer.direction

variable {h : LoopHead} {v : Valuation} {names : List String} {lo hi size : Int}

theorem agreeOff_scope (hname : h.dim.name ∈ names) (i : Int) :
    AgreeOff names v (h.scope v i) := by
  intro s hs
  refine Function.update_of_ne ?_ _ _
  rintro rfl
  exact hs hname

theorem agreeOff_of_scope {w : Valuation} {i : Int} (h' : AgreeOff names (h.scope v i) w) :
    AgreeOff (h.dim.name :: names) v w := by
  intro s hs
  rw [List.mem_cons, not_or] at hs
  rw [h' s hs.2]
  exact Function.update_of_ne hs.1 _ _

/-- A range whose length is a multiple of the step is traversed tile by tile. -/
theorem Spans.iterates (hspan : h.Spans names v lo hi) (hstep : h.Steps names v size)
    (hname : h.dim.name ∈ names) (hpos : 0 < size) {k : Int} (hk : hi - lo + 1 = size * k) :
    h.Iterates v (h.start v) ((List.range k.toNat).map fun j : Nat =>
      h.direction.near lo hi + h.direction.sign * (size * j)) := by
  have hbefore : ∀ j : Nat, size * j < size * k ↔ j < k.toNat := by
    intro j
    rw [Int.mul_lt_mul_left hpos]
    omega
  have hadmits : ∀ j : Nat, h.Admits v (h.direction.near lo hi + h.direction.sign * (size * j)) ↔
      j < k.toNat := by
    intro j
    have hj := hbefore j
    have hscope := hspan _ (agreeOff_scope hname
      (h.direction.near lo hi + h.direction.sign * (size * j)))
    revert hscope
    cases hdir : h.direction <;> simp only [Admits, hdir, Direction.near, Direction.sign] <;>
      rintro ⟨hlo, hhi⟩
    · rw [hhi]
      omega
    · rw [hlo]
      omega
  have hstart : h.start v = h.direction.near lo hi + h.direction.sign * (size * (0 : Nat)) := by
    obtain ⟨hlo, hhi⟩ := hspan v fun _ _ => rfl
    cases hdir : h.direction <;> simp [start, hdir, Direction.near, hlo, hhi]
  rw [hstart]
  refine iterates_of_steps (fun j hj => (hadmits j).mpr hj) (fun j _ => ?_)
    (fun hgo => Nat.lt_irrefl _ ((hadmits _).mp hgo))
  have hscope := hstep _ (agreeOff_scope hname
    (h.direction.near lo hi + h.direction.sign * (size * j)))
  revert hscope
  cases hdir : h.direction <;> simp only [LoopHead.next, hdir, Direction.near, Direction.sign] <;>
    intro hscope <;> rw [hscope] <;> push_cast <;> ring

end LoopHead

/-- Counting through equal parts one after another counts through the whole. -/
theorem flatten_range {α : Type} (f : Nat → α) (n m : Nat) :
    ((List.range n).map fun j => (List.range m).map fun k => f (m * j + k)).flatten =
      (List.range (m * n)).map f := by
  induction n with
  | zero => rfl
  | succ n ih =>
    rw [List.range_succ, List.map_append, List.flatten_append, ih, Nat.mul_succ, List.range_add,
      List.map_append, List.map_map]
    simp [Function.comp_def]

/-- Walking through equal parts one after another walks through the whole. -/
theorem Direction.flatten_walk (dir : Direction) (first : Int) (n m : Nat) :
    ((List.range n).map fun j : Nat => dir.walk (first + dir.sign * (m * j)) m).flatten =
      dir.walk first (m * n) := by
  rw [walk, ← flatten_range]
  congr 1
  refine List.map_congr_left fun j _ => List.map_congr_left fun k _ => ?_
  push_cast
  ring

/-- Nested tiles visit as many points as the outermost loop spans, one after another. -/
theorem runs_tiles {outer : LoopHead} {inner : List LoopHead} {v : Valuation} {lo hi : Int}
    {sizes : List Int} {x : String}
    (hchain : (outer :: inner).IsChain fun p q => q.Tiles p)
    (hnames : ((outer :: inner).map (·.dim.name)).Nodup)
    (hlast : ((outer :: inner).map (·.dim.name)).getLast? = some x)
    (hspan : outer.Spans ((outer :: inner).map (·.dim.name)) v lo hi)
    (hsteps : List.Forall₂ (fun h => h.Steps ((outer :: inner).map (·.dim.name)) v)
      (outer :: inner) (sizes ++ [1]))
    (hdvd : ((hi - lo + 1) :: sizes).IsChain fun n size => 0 < size ∧ size ∣ n) :
    ∃ points, Runs (outer :: inner) v points ∧ points.map (· x) =
      outer.direction.walk (outer.direction.near lo hi + (sizes.map outer.direction.lead).sum)
        (hi - lo + 1).toNat := by
  induction inner generalizing outer sizes v lo hi with
  | nil =>
    obtain rfl : outer.dim.name = x := by simpa using hlast
    obtain rfl : sizes = [] := by
      have hlen := hsteps.length_eq
      simpa using hlen
    have hstep := (List.forall₂_cons.mp hsteps).1
    have hiter := hspan.iterates hstep List.mem_cons_self one_pos (k := hi - lo + 1) (by omega)
    refine ⟨_, ⟨_, _, hiter, List.forall₂_map_right_iff.mpr (List.forall₂_same.mpr fun i _ => rfl),
      rfl⟩, ?_⟩
    rw [← List.flatMap_def, ← List.map_eq_flatMap, List.map_map, List.map_map]
    simp [Function.comp_def, LoopHead.scope, Direction.walk]
  | cons head rest ih =>
    cases sizes with
    | nil =>
      have hlen := hsteps.length_eq
      simp at hlen
    | cons size sizes =>
      obtain ⟨hstep, hsteps⟩ := List.forall₂_cons.mp hsteps
      obtain ⟨htile, hchain⟩ := List.isChain_cons_cons.mp hchain
      obtain ⟨hout, hnames⟩ := List.nodup_cons.mp hnames
      obtain ⟨⟨hpos, k, hk⟩, hdvd⟩ := List.isChain_cons_cons.mp hdvd
      have hiter := hspan.iterates hstep List.mem_cons_self hpos hk
      -- One iteration of the outer loop runs through one of its steps.
      have htiles : ∀ i : Int, ∃ points, Runs (head :: rest) (outer.scope v i) points ∧
          points.map (· x) = outer.direction.walk
            (outer.direction.near i (i + size - 1) + (sizes.map outer.direction.lead).sum)
            size.toNat := by
        intro i
        have hinner : head.Spans ((head :: rest).map (·.dim.name)) (outer.scope v i) i
            (i + size - 1) := by
          intro w hw
          have hindex : w outer.dim.name = i :=
            (hw _ hout).trans (Function.update_self _ _ _)
          rw [htile.lower, htile.upper, hindex, hstep w (LoopHead.agreeOff_of_scope hw)]
          exact ⟨rfl, rfl⟩
        have hlen : i + size - 1 - i + 1 = size := by omega
        have hsteps' := hsteps.imp fun h size hstep =>
          show h.Steps ((head :: rest).map (·.dim.name)) (outer.scope v i) size from
            fun w hw => hstep w (LoopHead.agreeOff_of_scope hw)
        obtain ⟨points, hpoints, hwalk⟩ := ih hchain hnames hlast hinner hsteps'
          (by rw [hlen]; exact hdvd)
        rw [htile.direction, hlen] at hwalk
        exact ⟨points, hpoints, hwalk⟩
      choose run hrun hwalk using htiles
      refine ⟨_, ⟨_, _, hiter, List.forall₂_map_right_iff.mpr
        (List.forall₂_same.mpr fun i _ => hrun i), rfl⟩, ?_⟩
      have hcount : (size * k).toNat = size.toNat * k.toNat := by
        rcases Int.le_total 0 k with hle | hle
        · exact Int.toNat_mul hpos.le hle
        · rw [Int.toNat_of_nonpos hle,
            Int.toNat_of_nonpos (Int.mul_nonpos_of_nonneg_of_nonpos hpos.le hle), Nat.mul_zero]
      rw [List.map_flatten, List.map_map, List.map_map, hk, hcount, ← Direction.flatten_walk]
      congr 1
      refine List.map_congr_left fun j _ => ?_
      simp only [Function.comp_apply, hwalk, Direction.near_tile, List.map_cons, List.sum_cons,
        Int.toNat_of_nonneg hpos.le]
      congr 1
      ring

end LoopNest
