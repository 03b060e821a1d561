import LoopNest.Proofs.BlockScopes

namespace LoopNest

namespace Dimension

def Sized (d : Dimension) : Prop :=
  ∃ name parent lower upper, d = block name parent lower upper (.symbol (sizeName name)) ∧
    ∀ r, parent = basic r → lower = .symbol (r ++ "_m") ∧ upper = .symbol (r ++ "_M")

def Outermost (d : Dimension) : Prop := d.isBlock ∧ ∃ r, d.parent? = some (basic r)

theorem Sized.sizeParameter? {d : Dimension} (h : d.Sized) :
    d.sizeParameter? = some (sizeName d.name) := by
  obtain ⟨name, parent, lower, upper, rfl, -⟩ := h
  rfl

theorem Sized.step {d : Dimension} (h : d.Sized) : d.step = .symbol (sizeName d.name) := by
  obtain ⟨name, parent, lower, upper, rfl, -⟩ := h
  rfl

theorem root_of_parent? {d : Dimension} {r : String} (h : d.parent? = some (basic r)) :
    d.root = basic r := by
  cases d with
  | basic name => cases h
  | block name parent min max step =>
    cases h
    rfl
  | sub name parent region =>
    cases h
    rfl

end Dimension

open Dimension

namespace Blocking

section
variable {d first : Dimension} {name : String} {inner : List Dimension}

/-- What stands within a block is not over a basic dimension. -/
theorem not_over_basic (hfirst : blockOver name d = .ok first)
    (hchain : (first :: inner).IsChain (fun p q => q.Within p)) {q : Dimension} (hq : q ∈ inner)
    (r : String) : q.parent? ≠ some (.basic r) := by
  intro hr
  obtain ⟨p, hwithin, hpq⟩ := exists_precedes_of_isChain hchain q hq
  have hp : p = .basic r := Option.some.inj (hwithin.parent?.symm.trans hr)
  have hparent : ∃ e, p.parent? = some e := by
    rcases List.mem_cons.mp hpq.left_mem with rfl | hin
    · exact ⟨d, parent?_of_blockOver hfirst⟩
    · obtain ⟨e, hwithin, -⟩ := exists_precedes_of_isChain hchain p hin
      exact ⟨e, hwithin.parent?⟩
  rw [hp] at hparent
  obtain ⟨e, he⟩ := hparent
  cases he

theorem sized_of_blockOver (hfirst : blockOver name d = .ok first) : first.Sized := by
  obtain ⟨lower, upper, hlower, hupper, rfl⟩ := blockOver_cases hfirst
  refine ⟨name, d, lower, upper, rfl, ?_⟩
  rintro r rfl
  cases hlower
  cases hupper
  exact ⟨rfl, rfl⟩

theorem sized_of_within (hfirst : blockOver name d = .ok first)
    (hchain : (first :: inner).IsChain (fun p q => q.Within p)) {q : Dimension} (hq : q ∈ inner)
    (hstep : q.step = .symbol (sizeName q.name)) : q.Sized := by
  obtain ⟨p, hwithin, -⟩ := exists_precedes_of_isChain hchain q hq
  have hparent := hwithin.parent?
  obtain ⟨s, last, step, rfl, -⟩ := hwithin
  have hstep : step = .symbol (sizeName s) := hstep
  refine ⟨s, p, p.symbol, last, by rw [hstep], ?_⟩
  rintro r rfl
  exact absurd hparent (not_over_basic hfirst hchain hq r)

end

def State.Extends (s s' : State) : Prop :=
  ∃ new, s'.created = s.created ++ new ∧ ∀ d ∈ new, d.Sized

theorem extends_progress : Progress State.Extends where
  refl s := ⟨[], (List.append_nil _).symm, by simp⟩
  trans := by
    rintro s t u ⟨new, hst, hnew⟩ ⟨new', htu, hnew'⟩
    refine ⟨new ++ new', ?_, List.forall_mem_append.mpr ⟨hnew, hnew'⟩⟩
    rw [htu, hst, List.append_assoc]

def Noted (known : Dimension → Prop) (s : State) (c : Cluster) : Prop :=
  ∀ d ∈ c.dimensions, d.Outermost → known d ∨ d ∈ s.created

variable {known : Dimension → Prop} {s : State} {c : Cluster}

theorem Noted.mono {t u : State} (h : t.Extends u) (hc : Noted known t c) : Noted known u c := by
  obtain ⟨new, hu, -⟩ := h
  intro d hd hout
  rw [hu]
  exact (hc d hd hout).imp_right (List.mem_append_left _)

theorem block_noted {b : Blocking} {d : Dimension} (hc : Noted known s c) :
    Yields State.Extends (Noted known) (b.block c d) s := by
  intro c' s' h
  obtain ⟨i, others, first, rest, last, rfl, hnest, hs, hx⟩ := block_expansion h
  have hsized : ∀ e ∈ first :: rest, e.Sized := by
    intro e he
    rcases List.mem_cons.mp he with rfl | hin
    · exact sized_of_blockOver hnest.outermost
    · exact sized_of_within hnest.outermost hnest.within (List.mem_append_left _ hin)
        (hnest.steps e he)
  have hextends : s.Extends s' := ⟨_, hs, hsized⟩
  refine ⟨hextends, fun e he hout => ?_⟩
  obtain ⟨m, hm, rfl⟩ := List.mem_map.mp he
  rcases (hx.mem m).mp hm with hm | hm
  · exact hc.mono hextends m.dim (Cluster.mem_dimensions_of_mem (hx.kept hm)) hout
  · obtain ⟨-, r, hr⟩ := hout
    rcases List.mem_cons.mp (dim_mem_of_blockIntervals hm) with hfirst | hin
    · rw [hs, hfirst]
      exact .inr (List.mem_append_right _ List.mem_cons_self)
    · exact absurd hr (not_over_basic hnest.outermost hnest.within hin r)

theorem callback_noted {b : Blocking} {clusters : List Cluster} {outer : List IterationInterval}
    (hc : ∀ c ∈ clusters, Noted known s c) :
    Yields State.Extends (fun t out => ∀ c ∈ out, Noted known t c) (b.callback clusters outer)
      s := by
  unfold callback
  split
  · exact .pure extends_progress hc
  · refine .mapM (P := Noted known) (R := Noted known) extends_progress Noted.mono Noted.mono
      (fun t c hc => ?_) hc
    split
    · exact block_noted hc
    · exact .pure extends_progress hc

theorem apply_noted {b : Blocking} {clusters : List Cluster}
    (hc : ∀ c ∈ clusters, Noted known s c) :
    Yields State.Extends (fun t out => ∀ c ∈ out, Noted known t c) (b.apply clusters) s := by
  unfold apply
  split
  · exact .pure extends_progress hc
  · exact Queue.yields_applyFirst (Q := Noted known) extends_progress Noted.mono
      (fun _ _ _ => callback_noted) hc

end Blocking

def KeepsDimensions (xs ys : List Cluster) : Prop :=
  ∀ c ∈ ys, ∀ d ∈ c.dimensions, ∃ c' ∈ xs, d ∈ c'.dimensions

theorem Exchange.keepsDimensions {xs ys : List Cluster} (h : Exchange xs ys) :
    KeepsDimensions xs ys := by
  obtain ⟨-⟩ := h
  exact fun c hc d hd => ⟨c, List.mem_append.mpr (List.mem_append.mp hc).symm, hd⟩

theorem Merge.keepsDimensions {xs ys : List Cluster} (h : Merge xs ys) : KeepsDimensions xs ys := by
  obtain ⟨hj⟩ := h
  intro c hc d hd
  rw [List.mem_singleton.mp hc] at hd
  obtain ⟨g, hg, hd⟩ := IntervalGroup.generate_dimensions (Fusion.join?_intervals hj) d hd
  rcases List.mem_pair.mp hg with rfl | rfl
  · exact ⟨_, List.mem_cons_self, hd⟩
  · exact ⟨_, List.mem_cons_of_mem _ List.mem_cons_self, hd⟩

theorem Interchange.Promotion.keepsDimensions {xs ys : List Cluster} (h : Promotion xs ys) :
    KeepsDimensions xs ys := by
  obtain ⟨h⟩ := h
  have hperm := ((Promoted.refl _).step h).perm.map Interval.dim
  intro c hc d hd
  rw [List.mem_singleton.mp hc] at hd
  exact ⟨_, List.mem_cons_self, hperm.mem_iff.mp hd⟩

theorem KeepsDimensions.trans {xs ys zs : List Cluster} (h : KeepsDimensions xs ys)
    (h' : KeepsDimensions ys zs) : KeepsDimensions xs zs := by
  intro c hc d hd
  obtain ⟨c', hc', hd⟩ := h' c hc d hd
  exact h c' hc' d hd

theorem Rewrites.keepsDimensions {R : List Cluster → List Cluster → Prop} {xs ys : List Cluster}
    (h : Rewrites R xs ys) (hR : ∀ as bs, R as bs → KeepsDimensions as bs) :
    KeepsDimensions xs ys := by
  refine h.keeps (P := KeepsDimensions xs) (fun c hc d hd => ⟨c, hc, hd⟩) ?_
  intro before after as bs hrel hxs
  refine hxs.trans fun c hc d hd => ?_
  simp only [List.mem_append] at hc ⊢
  rcases hc with (hc | hc) | hc
  · exact ⟨c, .inl (.inl hc), hd⟩
  · obtain ⟨c', hc', hd⟩ := hR as bs hrel c hc d hd
    exact ⟨c', .inl (.inr hc'), hd⟩
  · exact ⟨c, .inr hc, hd⟩

namespace Pipeline

/-- The blocks that a pass creates have sizes of their own, and no other block over a basic
dimension comes up. -/
theorem runPass_creates {config : Config} {pass : String} {clusters : List Cluster}
    {r : List Cluster × List Dimension} (hpass : pass ≠ "remainder")
    (h : runPass config pass clusters = .ok r) :
    (∀ d ∈ r.2, d.Sized) ∧ ∀ c ∈ r.1, ∀ d ∈ c.dimensions, d.Outermost →
      (∃ c' ∈ clusters, d ∈ c'.dimensions) ∨ d ∈ r.2 := by
  have hkeeps : KeepsDimensions clusters r.1 → r.2 = [] → (∀ d ∈ r.2, d.Sized) ∧
      ∀ c ∈ r.1, ∀ d ∈ c.dimensions, d.Outermost →
        (∃ c' ∈ clusters, d ∈ c'.dimensions) ∨ d ∈ r.2 := by
    intro hk hnone
    rw [hnone]
    exact ⟨List.forall_mem_nil _, fun c hc d hd _ => .inl (hk c hc d hd)⟩
  rcases runPass_cases h with ⟨-, hnone, h⟩ | ⟨-, state, h, hcreated⟩ | ⟨-, hnone, h⟩ | ⟨hsplit, -⟩
  · refine hkeeps (h.keepsDimensions fun _ _ hr => ?_) hnone
    cases hr with
    | exchange h => exact h.keepsDimensions
    | merge h => exact h.keepsDimensions
  · have hknown : ∀ c ∈ clusters,
        Blocking.Noted (fun d => ∃ c' ∈ clusters, d ∈ c'.dimensions) .empty c :=
      fun c hc d hd _ => .inl ⟨c, hc, hd⟩
    obtain ⟨⟨new, hnew, hsized⟩, hnoted⟩ := Blocking.apply_noted hknown r.1 state h
    have hnew : state.created = new := hnew
    rw [hcreated]
    exact ⟨hnew ▸ hsized, hnoted⟩
  · exact hkeeps (h.keepsDimensions fun _ _ => Interchange.Promotion.keepsDimensions) hnone
  · exact absurd hsplit hpass

/-- What a run without the splitting of clusters notes as created has sizes of its own, and every
block over a basic dimension is among it or was there before. -/
structure Creates (clusters : List Cluster) (done : Outcome) : Prop where
  sized : ∀ d ∈ done.blockDimensions, d.Sized
  loops : ∀ c ∈ done.clusters, ∀ d ∈ c.dimensions, d.Outermost →
    (∃ c' ∈ clusters, d ∈ c'.dimensions) ∨ d ∈ done.blockDimensions

theorem addPass_creates {config : Config} {pass : String} {clusters : List Cluster}
    {done next : Outcome} (hpass : pass ≠ "remainder") (hdone : Creates clusters done)
    (h : addPass config done pass = .ok next) : Creates clusters next := by
  obtain ⟨r, hr, h⟩ := Returns.of_bind (returns_ok h)
  obtain ⟨hsized, hloops⟩ := runPass_creates hpass (mapError_ok hr)
  rw [Returns.of_pure h]
  refine ⟨List.forall_mem_append.mpr ⟨hdone.sized, hsized⟩, fun c hc d hd hout => ?_⟩
  rcases hloops c hc d hd hout with ⟨c', hc', hd⟩ | hnew
  · exact (hdone.loops c' hc' d hd hout).imp_right (List.mem_append_left _)
  · exact .inr (List.mem_append_right _ hnew)

theorem foldlM_creates {config : Config} {clusters : List Cluster} {done : Outcome}
    (hpass : "remainder" ∉ config.mode.passes)
    (h : config.mode.passes.foldlM (addPass config) ⟨clusters, [], false, [], .empty⟩ = .ok done) :
    Creates clusters done := by
  refine returns_foldlM (P := fun _ (done : Outcome) => Creates clusters done) (returns_ok h)
    ⟨by simp, fun c hc d hd _ => .inl ⟨c, hc, hd⟩⟩ ?_
  intro _ pass done next hin hdone hnext
  refine addPass_creates ?_ hdone hnext
  rintro rfl
  exact hpass hin

end Pipeline
end LoopNest
