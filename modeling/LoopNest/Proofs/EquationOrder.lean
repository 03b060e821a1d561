import LoopNest.Proofs.Instances
import LoopNest.Proofs.PassMoves

namespace LoopNest

/-- The second list has the equations of the first in an order in which no two dependent ones have
changed places. Every equation is taken together with the place it had. -/
def Rearranged (es fs : List Equation) : Prop :=
  ∃ zs : List (Equation × Nat), zs.Perm es.zipIdx ∧ zs.map Prod.fst = fs ∧
    zs.Pairwise fun s t => ¬s.1.Independent t.1 → s.2 < t.2

namespace Rearranged

theorem iff_reorders : Rearranged es fs ↔ Reorders (fun e f => ¬e.Independent f) es fs := .rfl

theorem refl (es : List Equation) : Rearranged es es := iff_reorders.mpr (.refl es)

/-- Neighbouring stretches without dependences may change places. -/
theorem exchange (h : Rearranged es (before ++ (as ++ bs) ++ after))
    (hi : ∀ a ∈ as, ∀ b ∈ bs, a.Independent b) :
    Rearranged es (before ++ (bs ++ as) ++ after) :=
  iff_reorders.mpr ((iff_reorders.mp h).exchange fun b hb a ha hdep => hdep (hi a ha b hb).symm)

end Rearranged

def equationsOf (clusters : List Cluster) : List Equation := clusters.flatMap Cluster.equations

theorem equationsOf_append (as bs : List Cluster) :
    equationsOf (as ++ bs) = equationsOf as ++ equationsOf bs :=
  List.flatMap_append

theorem Cluster.ofClusters_equations {cs : List Cluster} (h : Cluster.ofClusters cs = .ok c) :
    c.equations = equationsOf cs := by
  cases cs with
  | nil => cases h
  | cons => exact (Cluster.ofClusters_parts h).equations

theorem Merge.equationsOf_eq (h : Merge xs ys) : equationsOf ys = equationsOf xs := by
  obtain ⟨hj⟩ := h
  obtain ⟨-, deps, k, -, -, hk, rfl⟩ := Fusion.join?_cases hj
  rw [← Cluster.ofClusters_equations hk]
  exact List.flatMap_singleton ..

theorem Block.equationsOf_eq (h : Block xs ys) : equationsOf ys = equationsOf xs := by
  obtain ⟨-, hb⟩ := h
  obtain ⟨n, blocks, last, i, ispace, -, -, -, -, rfl⟩ := Blocking.block_cases hb
  rfl

theorem Promote.equationsOf_eq (h : Promote xs ys) : equationsOf ys = equationsOf xs := by
  obtain ⟨-, hm⟩ := h
  obtain ⟨chains, group, -, rfl⟩ := Interchange.moveLoop_cases hm
  rfl

/-- A move that splits nothing rearranges the equations. -/
theorem Rearranged.move (hm : Move False xs ys)
    (h : Rearranged es (equationsOf (before ++ xs ++ after))) :
    Rearranged es (equationsOf (before ++ ys ++ after)) := by
  simp only [equationsOf_append] at h ⊢
  cases hm with
  | exchange hx =>
    obtain ⟨hi⟩ := hx
    simp only [equationsOf_append] at h ⊢
    refine h.exchange fun e he f hf => ?_
    obtain ⟨a, ha, he⟩ := List.mem_flatMap.mp he
    obtain ⟨b, hb, hf⟩ := List.mem_flatMap.mp hf
    exact hi a ha b hb e he f hf
  | merge hx => rwa [hx.equationsOf_eq]
  | block hx => rwa [hx.equationsOf_eq]
  | promote hx => rwa [hx.equationsOf_eq]
  | split hs _ => exact hs.elim

/-- Without the pass that splits clusters, a run keeps all equations as they are and never changes
the order of two of which one writes an array that the other reads or writes. -/
theorem run_rearranges_independent {config : Config} {clusters : List Cluster} {out : Outcome}
    (h : Pipeline.run config clusters = .ok out) (hpass : "remainder" ∉ config.mode.passes) :
    Rearranged (equationsOf clusters) (equationsOf out.clusters) := by
  have hmoves := Pipeline.run_moves h
  simp only [hpass] at hmoves
  exact hmoves.keeps (P := fun cs => Rearranged (equationsOf clusters) (equationsOf cs))
    (Rearranged.refl _) fun _ _ _ _ hm hcs => hcs.move hm

/-- `w[x] = u[x]` moves up past the loop over `y` and is fused with `u[x] = 1`, which it depends
on and still follows. -/
theorem run_rearranges_moved :
    ∃ out, Pipeline.run { Config.standard with mode := .custom ["toposort", "fuse"] }
      [.single "x" (.around "x" "u" 0) (.int 1), .single "y" (.around "y" "v" 0) (.int 2),
        .single "x" (.around "x" "w" 0) (.access (.around "x" "u" 0))] = .ok out ∧
    (equationsOf out.clusters).map Equation.write = ["u", "w", "v"] ∧
    Rearranged (equationsOf
      [.single "x" (.around "x" "u" 0) (.int 1), .single "y" (.around "y" "v" 0) (.int 2),
        .single "x" (.around "x" "w" 0) (.access (.around "x" "u" 0))])
      (equationsOf out.clusters) := by
  obtain ⟨out, hrun, hwrites⟩ : ∃ out,
      Pipeline.run { Config.standard with mode := .custom ["toposort", "fuse"] }
        [.single "x" (.around "x" "u" 0) (.int 1), .single "y" (.around "y" "v" 0) (.int 2),
          .single "x" (.around "x" "w" 0) (.access (.around "x" "u" 0))] = .ok out ∧
      (equationsOf out.clusters).map Equation.write = ["u", "w", "v"] := ⟨_, rfl, rfl⟩
  exact ⟨out, hrun, hwrites, run_rearranges_independent hrun (by decide)⟩

end LoopNest
