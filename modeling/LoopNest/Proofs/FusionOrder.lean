import LoopNest.Proofs.DependenceDistance
import LoopNest.Proofs.PassMoves

namespace LoopNest

/-- The points are apart first, and in the wrong order, on a loop that no subscript mentions. -/
def UnseenSwap (loops : List IterationInterval) (x : Access) (p q : Valuation) : Prop :=
  ∃ outer l inner, loops = outer ++ l :: inner ∧ Agree (outer.map (·.dim)) p q ∧
    l.along q < l.along p ∧ ¬x.Mentions l.dim.name

namespace Cluster

/-- No instance of the first cluster comes after one of the second that it conflicts with, when both
run in the nest of the first. -/
def KeepsOrder (a b : Cluster) : Prop :=
  ∀ v p q x y, a.Meet b v p q x y → ¬Later a.loops p q

end Cluster

namespace Fusion

/-- Two clusters become one only by being joined. -/
theorem join?_of_apply (h : (apply [a, b]).run n = .ok ([c], n')) : join? a b = .ok (some c) := by
  have hm := apply_merges ⟨n, n', h⟩
  rcases Relation.ReflTransGen.cases_head hm with he | ⟨cs, hw, hrest⟩
  · cases he
  · generalize he : [a, b] = ab at hw
    cases hw with
    | part before after hR =>
      obtain ⟨hj⟩ := hR
      have hlen := congrArg List.length he
      simp only [List.length_cons, List.length_nil, List.length_append] at hlen
      obtain ⟨hbefore, hafter⟩ : before.length = 0 ∧ after.length = 0 := by omega
      obtain rfl := List.eq_nil_of_length_eq_zero hbefore
      obtain rfl := List.eq_nil_of_length_eq_zero hafter
      simp only [List.nil_append, List.append_nil, List.cons.injEq, and_true] at he
      obtain ⟨rfl, rfl⟩ := he
      have hstuck := Rewrites.eq_of_stuck hrest ?_
      · cases hstuck
        exact hj
      · intro before after as bs hsplit hm
        cases hm
        have hlen := congrArg List.length hsplit
        simp only [List.nil_append, List.append_nil, List.length_cons, List.length_nil,
          List.length_append] at hlen
        omega

/-- For clusters that were joined, only an unseen swap puts a pair of instances out of order. -/
theorem later_iff_unseenSwap (h : join? a b = .ok (some c)) (hb : a.IsBasic)
    (hm : a.Meet b v p q x y) : Later a.loops p q ↔ UnseenSwap a.loops x p q := by
  obtain ⟨hloops, deps, k, hdeps, hfree, -, -⟩ := join?_cases h
  constructor
  · intro hlater
    obtain ⟨outer, l, inner, hsplit, hagree, hlt⟩ := later_iff.mp hlater
    refine ⟨outer, l, inner, hsplit, hagree, hlt, fun hmention => ?_⟩
    obtain ⟨r, hr, hmem⟩ := mem_dependences hdeps hm.conflict
    have hbasic : ∀ d ∈ a.dimensions ++ b.dimensions, d.IsBasic := by
      rw [← Cluster.dimensions_eq_of_loops hloops]
      exact fun d hd => hb d ((List.mem_append.mp hd).elim id id)
    have hknown : x.distance y ≠ .unknown := by
      intro hu
      have hof : Distance.ofAccesses a.loops (a.dimensions ++ b.dimensions) x y =
          .ok (some .unknown) := by simp [Distance.ofAccesses, hu]
      rw [hof] at hr
      have hbad := (hfree .unknown (hmem _ (Except.ok.inj hr).symm)).1
      simp [Distance.isUnknown] at hbad
    obtain ⟨w, rest, rfl, hw⟩ := Distance.ofAccesses_leading
      (fun l hl => List.mem_append_left _ (Cluster.dim_mem_dimensions hl)) hbasic hr hknown hm.same
      (Cluster.Point.params_eq hm.left hm.right) hsplit hagree
      (fun he => hlt.ne (IterationInterval.along_eq_iff.mpr he.symm)) hmention
    -- a dependence against the loop order would have kept the clusters apart
    have hneg : w.toInt < 0 := by omega
    have hrev : (Distance.uniform ((l.dim, w) :: rest)).isReversed = true :=
      Distance.isReversed_of_neg hneg
    rw [(hfree _ (hmem _ rfl)).2] at hrev
    cases hrev
  · intro hswap
    obtain ⟨outer, l, inner, hsplit, hagree, hlt, -⟩ := hswap
    exact later_iff.mpr ⟨outer, l, inner, hsplit, hagree, hlt⟩

/-- Merging two clusters keeps the order of every conflict whose subscripts mention all loops. -/
theorem keepsOrder_of_mentions (h : join? a b = .ok (some c)) (hb : a.IsBasic)
    (hall : ∀ x y, Conflict a b x y → x.array = y.array → ∀ l ∈ a.loops, x.Mentions l.dim.name) :
    a.KeepsOrder b := by
  intro v p q x y hm hlater
  obtain ⟨outer, l, inner, hsplit, -, -, hmention⟩ := (later_iff_unseenSwap h hb hm).mp hlater
  refine hmention (hall x y hm.conflict (congrArg Prod.fst hm.same) l ?_)
  rw [hsplit]
  exact List.mem_append_right _ List.mem_cons_self

/-- Fusing two clusters into one keeps the order of their instances exactly if no conflicting
instances are swapped along a loop that their subscripts do not mention. -/
theorem fused_keepsOrder_iff (h : (apply [a, b]).run n = .ok ([c], n')) (hb : a.IsBasic) :
    a.KeepsOrder b ↔ ∀ v p q x y, a.Meet b v p q x y → ¬UnseenSwap a.loops x p q := by
  have hj := join?_of_apply h
  constructor
  · intro hk v p q x y hm hswap
    exact hk v p q x y hm ((later_iff_unseenSwap hj hb hm).mpr hswap)
  · intro hk v p q x y hm hlater
    exact hk v p q x y hm ((later_iff_unseenSwap hj hb hm).mp hlater)

/-- `u[x] = 1` and `w[x] = u[x - 1]` fuse, and every read still follows its write. -/
theorem fused_keepsOrder_shifted :
    ∃ c, (apply [.single "x" (.around "x" "u" 0) (.int 1),
      .single "x" (.around "x" "w" 0) (.access (.around "x" "u" (-1)))]).run 0 = .ok ([c], 1) ∧
    (Cluster.single "x" (.around "x" "u" 0) (.int 1)).KeepsOrder
      (.single "x" (.around "x" "w" 0) (.access (.around "x" "u" (-1)))) := by
  obtain ⟨c, hc⟩ : ∃ c, (apply [.single "x" (.around "x" "u" 0) (.int 1),
    .single "x" (.around "x" "w" 0) (.access (.around "x" "u" (-1)))]).run 0 = .ok ([c], 1) :=
    ⟨_, rfl⟩
  refine ⟨c, hc, (fused_keepsOrder_iff hc (Cluster.single_isBasic _ _ _)).mpr ?_⟩
  intro v p q x y hm hswap
  obtain ⟨outer, l, inner, hsplit, -, -, hunseen⟩ := hswap
  obtain ⟨wx, -, hx, -⟩ := hm.conflict
  have hx : (x, wx) ∈ [(Access.around "x" "u" 0, true)] := hx
  have hl : l ∈ (Cluster.single "x" (.around "x" "u" 0) (.int 1)).loops := by
    rw [hsplit]
    exact List.mem_append_right _ List.mem_cons_self
  have hl : l ∈ [(⟨.closed (.basic "x") .zero .zero, .forward⟩ : IterationInterval)] := hl
  obtain rfl := List.mem_singleton.mp hl
  obtain ⟨rfl, -⟩ := Prod.mk.inj (List.mem_singleton.mp hx)
  exact hunseen (by decide)

/-- `s[0] = u[x]` and `w[x] = s[0]` fuse although no subscript of `s` mentions `x`. Before, every
point of `w` got the last value of `s`; in one nest the first point reads the first value. -/
theorem fused_reorders_scalar :
    ∃ c, (apply [.single "x" (.scalar "s") (.access (.around "x" "u" 0)),
      .single "x" (.around "x" "w" 0) (.access (.scalar "s"))]).run 0 = .ok ([c], 1) ∧
    (Cluster.single "x" (.scalar "s") (.access (.around "x" "u" 0))).IsBasic ∧
    ¬(Cluster.single "x" (.scalar "s") (.access (.around "x" "u" 0))).KeepsOrder
      (.single "x" (.around "x" "w" 0) (.access (.scalar "s"))) := by
  refine ⟨_, rfl, Cluster.single_isBasic _ _ _, fun hk => ?_⟩
  have hlater := hk (fun s => if s = "x_M" then 1 else 0)
    (fun s => if s = "x_M" ∨ s = "x" then 1 else 0) (fun s => if s = "x_M" then 1 else 0)
    (.scalar "s") (.scalar "s")
    ⟨Cluster.single_point (by simp +contextual) (by decide) (by decide),
      Cluster.single_point (by simp) (by decide) (by decide),
      ⟨true, false, by decide, by decide, .inl rfl⟩, rfl⟩
  exact hlater (.inl (by decide))

end Fusion
end LoopNest
