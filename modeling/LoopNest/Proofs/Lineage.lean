import LoopNest.Dimension.Basic
import LoopNest.Proofs.Returns

namespace LoopNest
namespace Dimension

theorem self_mem_lineage (d : Dimension) : d ∈ d.lineage := by
  cases d <;> simp [lineage]

theorem lineage_trans {d e f : Dimension} (he : e ∈ d.lineage) (hf : f ∈ e.lineage) :
    f ∈ d.lineage := by
  induction d with
  | basic name =>
    rw [lineage, List.mem_singleton] at he
    rwa [he] at hf
  | block name parent min max step ih =>
    rw [lineage, List.mem_cons] at he
    rcases he with rfl | he
    · exact hf
    · exact List.mem_cons_of_mem _ (ih he)
  | sub name parent region ih =>
    rw [lineage, List.mem_cons] at he
    rcases he with rfl | he
    · exact hf
    · exact List.mem_cons_of_mem _ (ih he)

theorem lineage_of_parent? {d e : Dimension} (h : d.parent? = some e) :
    d.lineage = d :: e.lineage := by
  cases d with
  | basic name => cases h
  | block name parent min max step =>
    cases h
    rfl
  | sub name parent region =>
    cases h
    rfl

theorem mem_lineage_of_parent? {d e : Dimension} (h : d.parent? = some e)
    (hf : f ∈ e.lineage) : f ∈ d.lineage := by
  rw [lineage_of_parent? h]
  exact List.mem_cons_of_mem _ hf

theorem ne_of_parent? {d e : Dimension} (h : d.parent? = some e) : d ≠ e := by
  rintro rfl
  exact List.cons_ne_self _ _ (lineage_of_parent? h).symm

theorem parent?_of_blockOver (h : blockOver s d = .ok e) : e.parent? = some d := by
  obtain ⟨min, -, h⟩ := Returns.of_bind (returns_ok h)
  obtain ⟨max, -, h⟩ := Returns.of_bind h
  rw [Returns.of_pure h]
  rfl

theorem parent?_of_blockWithin {size : Option LinExpr}
    (h : blockWithin s d size = .ok e) : e.parent? = some d := by
  obtain ⟨next, -, h⟩ := Returns.of_bind (returns_ok h)
  obtain ⟨last, -, h⟩ := Returns.of_bind h
  rw [Returns.of_pure h]
  rfl

theorem root_of_mem_lineage {d e : Dimension} (h : e ∈ d.lineage) : e.root = d.root := by
  induction d with
  | basic name =>
    rw [lineage, List.mem_singleton] at h
    rw [h]
  | block name parent min max step ih =>
    rw [lineage, List.mem_cons] at h
    rcases h with rfl | h
    · rfl
    · exact ih h
  | sub name parent region ih =>
    rw [lineage, List.mem_cons] at h
    rcases h with rfl | h
    · rfl
    · exact ih h

theorem root_mem_lineage (d : Dimension) : d.root ∈ d.lineage := by
  induction d with
  | basic name => exact List.mem_singleton.mpr rfl
  | block name parent min max step ih => exact List.mem_cons_of_mem _ ih
  | sub name parent region ih => exact List.mem_cons_of_mem _ ih

end Dimension
end LoopNest
