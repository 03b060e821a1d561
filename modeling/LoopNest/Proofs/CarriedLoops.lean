import LoopNest.Proofs.FusedNests
import LoopNest.Proofs.Tags

namespace LoopNest

/-- The cluster runs in order all of its loops that share a root with the one that carries the
dependence. -/
def Cluster.Carries (c : Cluster) (dep : Distance) : Prop :=
  ∀ carrier, dep.carrier? = some carrier → ∀ d ∈ c.dimensions, carrier.sharesRoot d →
    c.properties.RunsInOrder d

theorem Distance.exists_uniform {dep : Distance} (h : dep.isUnknown = false) :
    ∃ components, dep = .uniform components := by
  cases dep with
  | uniform components => exact ⟨components, rfl⟩
  | unknown => cases h

namespace Fusion

/-- A merge of two clusters that `c` respects: they had the same loops, all dependences from one to
the other have a known distance and do not run against these loops, and `c` carries them. -/
structure Respects (c : Cluster) (m : Cluster × Cluster) : Prop where
  loops : m.1.loops = m.2.loops
  carries : ∃ deps, dependences m.1 m.2 m.1.loops = .ok deps ∧ ∀ dep ∈ deps,
    (∃ components, dep = .uniform components) ∧ dep.isReversed = false ∧ c.Carries dep

section
variable {a b c : Cluster}

/-- Both sides have the dimensions of the joined cluster. -/
theorem join?_dimensions (h : join? a b = .ok (some c)) :
    ∀ d ∈ c.dimensions, d ∈ a.dimensions ∧ d ∈ b.dimensions := by
  intro d hd
  have hsame : a.dimensions = b.dimensions := Cluster.dimensions_eq_of_loops (join?_cases h).1
  obtain ⟨g, hg, hd⟩ := IntervalGroup.generate_dimensions (join?_intervals h) d hd
  rcases List.mem_pair.mp hg with rfl | rfl
  · exact ⟨hd, hsame ▸ hd⟩
  · exact ⟨hsame ▸ hd, hd⟩

/-- What either side carries is still carried when the two are joined. -/
theorem join?_carries (h : join? a b = .ok (some c)) {dep : Distance}
    (hside : a.Carries dep ∨ b.Carries dep) : c.Carries dep := by
  obtain ⟨deps, -, -, hproperties⟩ := join?_properties h
  intro carrier hc d hd hroot
  obtain ⟨hda, hdb⟩ := join?_dimensions h d hd
  rw [hproperties]
  refine (Properties.runsInOrder_merge ?_).narrow _ _
  exact hside.imp (· carrier hc d hda hroot) (· carrier hc d hdb hroot)

/-- The dependences between the two sides are carried from then on. -/
theorem join?_respects (h : join? a b = .ok (some c)) : Respects c (a, b) := by
  obtain ⟨deps, hdeps, hfree, hproperties⟩ := join?_properties h
  refine ⟨(join?_cases h).1, deps, hdeps, fun dep hdep => ?_⟩
  obtain ⟨hknown, hforward⟩ := hfree dep hdep
  refine ⟨Distance.exists_uniform hknown, hforward, fun carrier hc d hd hroot => ?_⟩
  rw [hproperties]
  exact Properties.runsInOrder_narrow _ hd (List.mem_filterMap.mpr ⟨dep, hdep, hc⟩) hroot

theorem Respects.mono {m : Cluster × Cluster} (h : Respects a m)
    (hmono : ∀ dep, a.Carries dep → c.Carries dep) : Respects c m where
  loops := h.loops
  carries := by
    obtain ⟨deps, hdeps, hall⟩ := h.carries
    refine ⟨deps, hdeps, fun dep hdep => ?_⟩
    obtain ⟨huniform, hforward, ha⟩ := hall dep hdep
    exact ⟨huniform, hforward, hmono dep ha⟩

end

/-- A cluster that was put together respects every merge that this took. -/
theorem Fused.respects {c : Cluster} {inputs : List Cluster} {merges : List (Cluster × Cluster)}
    (h : Fused c inputs merges) : ∀ m ∈ merges, Respects c m := by
  induction h with
  | input => exact List.forall_mem_nil _
  | join _ _ h iha ihb =>
    refine List.forall_mem_append.mpr ⟨List.forall_mem_append.mpr ⟨fun m hm => ?_, fun m hm => ?_⟩,
      List.forall_mem_singleton.mpr (join?_respects h)⟩
    · exact (iha m hm).mono fun dep ha => join?_carries h (.inl ha)
    · exact (ihb m hm).mono fun dep hb => join?_carries h (.inr hb)

/-- Fusion puts clusters together by as many merges as it counts. However a cluster that comes out
was put together, both sides of each merge had the same loops, every dependence between them has a
known distance and does not run against these loops, and in the end all loops with the root of a
carrier are sequential and not parallel. -/
theorem apply_respects_merges {n n' : Nat} (h : (apply clusters).run n = .ok (out, n')) :
    (∃ merged parts, n' = n + merged ∧ Assembles clusters out merged parts) ∧
      ∀ merged parts, Assembles clusters out merged parts →
        ∀ p ∈ parts, ∀ m ∈ p.merges, Respects p.cluster m :=
  ⟨apply_assembles h, fun _ _ _ p _ => p.fused.respects⟩

end Fusion

def Cluster.parallelWrite (array : String) (rhs : Expr) : Cluster :=
  (single "x" (.around "x" array 0) rhs).tagged (.basic "x") [.parallel, .parallelIndep]

namespace Fusion

/-- `u[x] = 1` and `w[x] = u[x - 1]` make `x` sequential, which merging `v[x] = 1` does not undo. -/
theorem apply_respects_merges_shifted :
    ∃ a b c ab abc, a = Cluster.parallelWrite "u" (.int 1) ∧
      b = Cluster.parallelWrite "w" (.access (.around "x" "u" (-1))) ∧
      c = Cluster.parallelWrite "v" (.int 1) ∧
      join? a b = .ok (some ab) ∧ join? ab c = .ok (some abc) ∧
      (apply [a, b, c]).run 0 = .ok ([abc], 2) ∧ abc.properties.RunsInOrder (.basic "x") := by
  refine ⟨_, _, _, _, _, rfl, rfl, rfl, rfl, rfl, rfl, ?_⟩
  let first := Fused.join (.input (.parallelWrite "u" (.int 1)))
    (.input (.parallelWrite "w" (.access (.around "x" "u" (-1))))) rfl
  let assembly : Assembly := ⟨_, _, _, first.join (.input (.parallelWrite "v" (.int 1))) rfl⟩
  have hrun : (apply assembly.inputs).run 0 = .ok ([assembly.cluster], 2) := rfl
  have hassembles : Assembles assembly.inputs [assembly.cluster] 2 [assembly] := ⟨rfl, rfl, rfl⟩
  have hrespects := (apply_respects_merges hrun).2 2 [assembly] hassembles assembly
    List.mem_cons_self
  obtain ⟨-, deps, hdeps, hall⟩ := hrespects _ List.mem_cons_self
  cases hdeps
  obtain ⟨-, -, hcarries⟩ := hall (.uniform [(.basic "x", 1)]) (by decide)
  exact hcarries (.basic "x") rfl (.basic "x") (by decide) (by decide)

end Fusion
end LoopNest
