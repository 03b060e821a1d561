import LoopNest.Proofs.PassMoves

namespace LoopNest
namespace Toposort

/-- The group stands directly behind the nearest of the groups before it that is under its loops, if
there is one, or a group in between conflicts with it. The groups before it are listed latest
first. -/
def Close (g : ClusterGroup) (earlier : List ClusterGroup) : Prop :=
  ∀ between h further, earlier = between ++ h :: further → h.loops = g.loops →
    (∀ k ∈ between, k.loops ≠ g.loops) → between = [] ∨ ∃ k ∈ between, g.Conflicts k

def Compact : List ClusterGroup → Prop
  | [] => True
  | g :: earlier => Close g earlier ∧ Compact earlier

theorem close_of_head {g h : ClusterGroup} {earlier : List ClusterGroup} (hh : h.loops = g.loops) :
    Close g (h :: earlier) := by
  intro between k further heq hk hfree
  cases between with
  | nil => exact .inl rfl
  | cons b between =>
    obtain ⟨rfl, -⟩ := List.cons.inj heq
    exact absurd hh (hfree h List.mem_cons_self)

/-- A group behind the one that is put in stays close: the nearest group under its loops is another
one, and what stood in between still does. -/
theorem Close.insert {k g h : ClusterGroup} {passed earlier : List ClusterGroup}
    (hclose : Close k (passed ++ h :: earlier)) (hh : h.loops = g.loops)
    (hk : k.loops ≠ g.loops) : Close k (passed ++ g :: h :: earlier) := by
  intro between near further heq hnear hfree
  have hgk : g.loops ≠ k.loops := hk.symm
  rcases List.append_eq_append_iff.mp heq with ⟨rest, rfl, hrest⟩ | ⟨rest, rfl, hrest⟩
  · -- the nearest group is at or before the place of the new one
    cases rest with
    | nil =>
      obtain ⟨rfl, -⟩ := List.cons.inj hrest
      exact absurd hnear hgk
    | cons b rest =>
      have htail : h :: earlier = rest ++ near :: further := (List.cons.inj hrest).2
      have hold : passed ++ h :: earlier = (passed ++ rest) ++ near :: further := by
        rw [htail, List.append_assoc]
      have hsub : ∀ x ∈ passed ++ rest, x ∈ passed ++ b :: rest := by
        intro x hx
        exact (List.mem_append.mp hx).elim (List.mem_append_left _)
          fun hx => List.mem_append_right _ (List.mem_cons_of_mem _ hx)
      rcases hclose _ near further hold hnear fun x hx => hfree x (hsub x hx) with hnil | hconflict
      · obtain ⟨rfl, rfl⟩ := List.append_eq_nil_iff.mp hnil
        obtain rfl : h = near := (List.cons.inj htail).1
        exact absurd (hh.symm.trans hnear) hgk
      · obtain ⟨x, hx, hc⟩ := hconflict
        exact .inr ⟨x, hsub x hx, hc⟩
  · cases rest with
    | nil =>
      obtain ⟨rfl, -⟩ := List.cons.inj hrest
      exact absurd hnear hgk
    | cons b rest =>
      obtain ⟨rfl, hrest⟩ := List.cons.inj hrest
      exact hclose between near (rest ++ h :: earlier) (by simp) hnear hfree

theorem Compact.insert {g h : ClusterGroup} {passed earlier : List ClusterGroup}
    (hc : Compact (passed ++ h :: earlier)) (hh : h.loops = g.loops)
    (hpassed : ∀ k ∈ passed, k.loops ≠ g.loops) : Compact (passed ++ g :: h :: earlier) := by
  induction passed with
  | nil => exact ⟨close_of_head hh, hc⟩
  | cons k passed ih =>
    obtain ⟨hk, hpassed⟩ := List.forall_mem_cons.mp hpassed
    obtain ⟨hclose, hc⟩ := hc
    exact ⟨hclose.insert hh hk, ih hc hpassed⟩

theorem place_compact {done : List ClusterGroup} (g : ClusterGroup) (hc : Compact done) :
    Compact (place done g).1 := by
  rcases place_cases done g with ⟨hplace, hclose⟩ | ⟨passed, h, earlier, rfl, hh, hfree, hplace⟩
  · rw [hplace]
    exact ⟨hclose, hc⟩
  · rw [hplace]
    exact hc.insert hh fun k hk => (hfree k hk).1

/-- A group passes no group that it conflicts with. -/
theorem place_reorders {given done rest : List ClusterGroup} {g : ClusterGroup}
    (h : Reorders ClusterGroup.Conflicts given (done.reverse ++ g :: rest)) :
    Reorders ClusterGroup.Conflicts given ((place done g).1.reverse ++ rest) := by
  rcases place_cases done g with ⟨hplace, -⟩ | ⟨passed, near, earlier, rfl, -, hfree, hplace⟩
  · rw [hplace]
    simpa using h
  · have hswap := @Reorders.exchange _ _ given ((near :: earlier).reverse) passed.reverse [g] rest
      (by simpa using h) fun b hb a ha => by
        obtain rfl := List.mem_singleton.mp hb
        exact (hfree a (List.mem_reverse.mp ha)).2
    rw [hplace]
    simpa using hswap

theorem foldl_step_compact (groups : List ClusterGroup) {state : List ClusterGroup × Nat}
    (hc : Compact state.1) : Compact (groups.foldl step state).1 := by
  induction groups generalizing state with
  | nil => exact hc
  | cons g groups ih => exact ih (place_compact g hc)

theorem foldl_step_reorders {given : List ClusterGroup} (groups : List ClusterGroup)
    {state : List ClusterGroup × Nat}
    (h : Reorders ClusterGroup.Conflicts given (state.1.reverse ++ groups)) :
    Reorders ClusterGroup.Conflicts given (groups.foldl step state).1.reverse := by
  induction groups generalizing state with
  | nil => simpa using h
  | cons g groups ih => exact ih (place_reorders h)

/-- What stands behind the nearest group under the same loops, read from the outside in. -/
theorem Compact.close {out before between after : List ClusterGroup} {h g : ClusterGroup}
    (hc : Compact out.reverse) (hout : out = before ++ h :: (between ++ g :: after))
    (hh : h.loops = g.loops) (hfree : ∀ k ∈ between, k.loops ≠ g.loops) :
    between = [] ∨ ∃ k ∈ between, g.Conflicts k := by
  have hsplit : out.reverse = after.reverse ++ g :: (between.reverse ++ h :: before.reverse) := by
    simp [hout]
  rw [hsplit] at hc
  generalize after.reverse = later at hc
  induction later with
  | nil =>
    have hbetween := hc.1 between.reverse h before.reverse rfl hh fun k hk =>
      hfree k (List.mem_reverse.mp hk)
    simpa using hbetween
  | cons k later ih => exact ih hc.2

/-- The groups in an order in which no two that conflict have changed places. A group behind another
one under the same loops, with none of these loops in between, comes directly behind it, unless a
group in between conflicts with it. -/
structure BroughtTogether (given out : List ClusterGroup) : Prop where
  close : ∀ before h between g after, out = before ++ h :: (between ++ g :: after) →
    h.loops = g.loops → (∀ k ∈ between, k.loops ≠ g.loops) →
      between = [] ∨ ∃ k ∈ between, g.Conflicts k
  reordered : Reorders ClusterGroup.Conflicts given out

/-- The groups of one run are brought together as far as their conflicts allow. -/
theorem callback_brings_together (groups : List ClusterGroup) (outer : List IterationInterval)
    (moved : Nat) : BroughtTogether groups ((callback groups outer).run moved).1 := by
  have hcompact : Compact (groups.foldl step ([], moved)).1 := foldl_step_compact groups trivial
  constructor
  · intro before h between g after hout hh hfree
    refine Compact.close ?_ hout hh hfree
    exact (List.reverse_reverse _).symm ▸ hcompact
  · exact foldl_step_reorders groups (.refl groups)

end Toposort
end LoopNest
