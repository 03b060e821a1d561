import LoopNest.Proofs.RoundTrip
import LoopNest.Proofs.TreeLeaves

namespace LoopNest

open Json Fields

def Error.Is (e : Error) (kind : InternalKind) : Prop := ∃ message, e = .internal kind message

namespace LinExpr

theorem ordered_error {a b : LinExpr} (h : a.ordered b = .error e) : e.Is .incomparableBounds := by
  unfold ordered at h
  split at h
  · cases h
    exact ⟨_, rfl⟩
  · cases h

theorem maxBound_error {a b : LinExpr} (h : a.maxBound b = .error e) :
    e.Is .incomparableBounds := by
  rcases bind_error h with h | ⟨order, -, h⟩
  · exact ordered_error h
  · cases h

theorem minBound_error {a b : LinExpr} (h : a.minBound b = .error e) :
    e.Is .incomparableBounds := by
  rcases bind_error h with h | ⟨order, -, h⟩
  · exact ordered_error h
  · cases h

end LinExpr

theorem Interval.checkSameDim_ok {i j : Interval} {operation : String} (h : i.dim = j.dim) :
    i.checkSameDim j operation = .ok () :=
  if_pos h

/-- Intervals over one dimension can be combined unless their bounds have no order. -/
theorem Combination.combine_error {how : Combination} {i j : Interval} (hdim : i.dim = j.dim)
    (h : how.combine i j = .error e) : e.Is .incomparableBounds := by
  cases how with
  | intersection =>
    rcases bind_error h with h | ⟨checked, -, h⟩
    · rw [Interval.checkSameDim_ok hdim] at h
      cases h
    · split at h
      · rcases bind_error h with h | ⟨lower, -, h⟩
        · exact LinExpr.maxBound_error h
        · rcases bind_error h with h | ⟨upper, -, h⟩
          · exact LinExpr.minBound_error h
          · cases h
      · cases h
  | union =>
    rcases bind_error h with h | ⟨checked, -, h⟩
    · rw [Interval.checkSameDim_ok hdim] at h
      cases h
    · split at h
      · rcases bind_error h with h | ⟨lower, -, h⟩
        · exact LinExpr.minBound_error h
        · rcases bind_error h with h | ⟨upper, -, h⟩
          · exact LinExpr.maxBound_error h
          · cases h
      · cases h
      · cases h

namespace IntervalGroup

theorem build_error {intervals : List Interval} {relations : List (List Dimension)}
    (hnd : (intervals.map Interval.dim).Nodup) (h : build intervals relations = .error e) :
    e.Is .cyclicRelations := by
  unfold build at h
  dsimp only at h
  rw [firstRepeated?_eq_none.mpr ⟨hnd, by simp⟩] at h
  rcases bind_error h with h | ⟨order, -, h⟩
  · unfold arrange at h
    dsimp only at h
    split at h
    · cases h
    · cases h
      exact ⟨_, rfl⟩
  · cases h

theorem combineOver_error {how : Combination} {groups : List IntervalGroup} {d : Dimension}
    (h : combineOver how groups d = .error e) : e.Is .incomparableBounds := by
  unfold combineOver at h
  split at h
  · cases h
  · rename_i first rest hfound
    have hdim : ∀ i ∈ first :: rest, i.dim = d := fun i hi => dim_of_found (hfound ▸ hi)
    obtain ⟨hfirst, hrest⟩ := List.forall_mem_cons.mp hdim
    obtain ⟨done, i, after, acc, rfl, hdone, h⟩ := foldlM_error (map_error h)
    have hacc : acc.dim = d := returns_foldlM (P := fun _ (k : Interval) => k.dim = d)
      (returns_ok hdone) hfirst fun _ _ _ _ _ hk hnext => (combine_dim hnext).trans hk
    exact Combination.combine_error (hacc.trans (hrest i (by simp)).symm) h

/-- Combined intervals are over some of the dimensions they were combined for, in their order. -/
theorem combined_dimensions {how : Combination} {groups : List IntervalGroup}
    {dims : List Dimension} {found : List (Option Interval)}
    (h : List.Forall₂ (fun d o => combineOver how groups d = .ok o) dims found) :
    ((found.filterMap id).map Interval.dim).Sublist dims := by
  induction h with
  | nil => exact .slnil
  | @cons d o dims found ho _ ih =>
    cases o with
    | none => exact .cons d ih
    | some i =>
      have hcons : (some i :: found).filterMap id = i :: found.filterMap id := rfl
      rw [hcons, List.map_cons, combineOver_dim ho]
      exact .cons_cons d ih

/-- Groups can be combined unless two bounds have no order or the chains form a cycle. -/
theorem generate_error {how : Combination} {groups : List IntervalGroup}
    (h : generate how groups = .error e) : e.Is .incomparableBounds ∨ e.Is .cyclicRelations := by
  rcases bind_error h with h | ⟨found, hfound, h⟩
  · obtain ⟨d, -, h⟩ := mapM_error h
    exact .inl (combineOver_error h)
  · have hdims := combined_dimensions (returns_mapM (returns_ok hfound))
    exact .inr (build_error (hdims.nodup (nodup_eraseDups _)) h)

end IntervalGroup

theorem IterationSpace.union_error {spaces : List IterationSpace} (h : union spaces = .error e) :
    e.Is .incomparableBounds ∨ e.Is .cyclicRelations ∨ e.Is .incompatibleSpaces := by
  rcases bind_error h with h | ⟨g, -, h⟩
  · rcases IntervalGroup.generate_error h with h | h
    · exact .inl h
    · exact .inr (.inl h)
  · rcases bind_error h with h | ⟨directions, -, h⟩
    · obtain ⟨done, s, rest, known, -, -, h⟩ := foldlM_error h
      obtain ⟨seen, entry, others, m, -, -, h⟩ := foldlM_error h
      split at h
      · split at h
        · cases h
        · cases h
          exact .inr (.inr ⟨_, rfl⟩)
      · cases h
    · cases h

theorem DataSpace.union_error {spaces : List DataSpace} (h : union spaces = .error e) :
    e.Is .incomparableBounds ∨ e.Is .cyclicRelations := by
  rcases bind_error h with h | ⟨g, -, h⟩
  · exact IntervalGroup.generate_error h
  · rcases bind_error h with h | ⟨parts, -, h⟩
    · obtain ⟨a, -, h⟩ := mapM_error h
      exact IntervalGroup.generate_error (map_error h)
    · cases h

/-- Clusters can be united unless two bounds have no order or the error means that they have to
stay apart. -/
theorem Cluster.ofClusters_error {c : Cluster} {cs : List Cluster}
    (h : ofClusters (c :: cs) = .error e) : e.Is .incomparableBounds ∨ Fusion.keepsApart e := by
  rcases bind_error h with h | ⟨ispace, -, h⟩
  · rcases IterationSpace.union_error h with h | ⟨message, rfl⟩ | ⟨message, rfl⟩
    · exact .inl h
    · exact .inr rfl
    · exact .inr rfl
  · rcases bind_error h with h | ⟨dspace, -, h⟩
    · rcases DataSpace.union_error h with h | ⟨message, rfl⟩
      · exact .inl h
      · exact .inr rfl
    · cases h

def Failure.FromFusion (f : Failure) : Prop :=
  f = .overflow ∨ ∃ e, f = .error e ∧ e.Is .incomparableBounds

namespace Fusion

theorem join?_error (h : join? a b = .error f) : f.FromFusion := by
  unfold join? at h
  split at h
  · cases h
  rename_i hsame
  have hloops : a.loops = b.loops := not_not.mp fun hne => hsame (.inl hne)
  rcases bind_error h with h | ⟨deps, -, h⟩
  · exact .inl (dependences_error h (fun l hl => hl) fun l hl => hloops ▸ hl).1
  split at h
  · cases h
  split at h
  · cases h
  · rename_i e he
    split at h
    · cases h
    · rename_i happart
      cases h
      exact .inr ⟨e, rfl, (Cluster.ofClusters_error he).resolve_right happart⟩

theorem joinLatest_fails (h : Fails (joinLatest done c) f) : f.FromFusion := by
  cases done with
  | nil => exact absurd h not_fails_pure
  | cons last earlier =>
    rcases fails_bind h with h | ⟨joined?, -, h⟩
    · exact join?_error (fails_lift h)
    · cases joined? with
      | none => exact absurd h not_fails_pure
      | some joined =>
        rcases fails_bind h with h | ⟨-, -, h⟩
        · exact absurd h not_fails_modify
        · exact absurd h not_fails_pure

theorem callback_fails (h : Fails (callback groups outer) f) : f.FromFusion := by
  obtain ⟨⟨loops, run⟩, -, h⟩ := fails_mapM h
  dsimp only at h
  split at h
  · exact absurd h not_fails_pure
  · rcases fails_bind h with h | ⟨fused, -, h⟩
    · obtain ⟨done, c, -, h⟩ := fails_foldlM (fails_map h)
      exact joinLatest_fails h
    · exact absurd h not_fails_pure

theorem apply_fails (h : Fails (apply clusters) f) : f.FromFusion := by
  obtain ⟨groups, outer, h⟩ := Queue.fails_processGroups h
  exact callback_fails h

end Fusion

def OnlyOverflows (x : Except Failure α) : Prop := ∀ f, x = .error f → f = .overflow

namespace OnlyOverflows

theorem pure {a : α} : OnlyOverflows (Pure.pure a) := fun _ h => nomatch h

theorem ok {a : α} : OnlyOverflows (.ok a) := fun _ h => nomatch h

theorem orOverflow {o : Option α} : OnlyOverflows (orOverflow o) :=
  fun _ h => (orOverflow_error_iff.mp h).2

theorem bind {x : Except Failure α} {f : α → Except Failure β} (hx : OnlyOverflows x)
    (hf : ∀ a, OnlyOverflows (f a)) : OnlyOverflows (x >>= f) := by
  intro failure h
  rcases bind_error h with h | ⟨a, -, h⟩
  · exact hx failure h
  · exact hf a failure h

theorem foldlM {f : β → α → Except Failure β} (hf : ∀ acc x, OnlyOverflows (f acc x)) {init : β}
    {xs : List α} : OnlyOverflows (xs.foldlM f init) := by
  intro failure h
  obtain ⟨done, x, rest, acc, -, -, h⟩ := foldlM_error h
  exact hf acc x failure h

end OnlyOverflows

namespace LinExpr

theorem addTerm_overflows {e : LinExpr} {s : String} {c : Int64} :
    OnlyOverflows (e.addTerm s c) := .bind .orOverflow fun _ => .pure

theorem add_overflows {a b : LinExpr} : OnlyOverflows (a.add b) :=
  .bind .orOverflow fun _ => .foldlM fun _ _ => addTerm_overflows

theorem addInt_overflows {e : LinExpr} {n : Int64} : OnlyOverflows (e.addInt n) :=
  .bind .orOverflow fun _ => .pure

theorem subInt_overflows {e : LinExpr} {n : Int64} : OnlyOverflows (e.subInt n) :=
  .bind .orOverflow fun _ => .pure

theorem sub_overflows {a b : LinExpr} : OnlyOverflows (a.sub b) :=
  .bind (.bind .orOverflow fun _ => .foldlM fun _ _ => .bind .orOverflow fun _ => addTerm_overflows)
    fun _ => add_overflows

end LinExpr

namespace Dimension

theorem bound_overflows {d : Dimension} {side : Side} : OnlyOverflows (d.bound side) := by
  induction d generalizing side with
  | basic name => cases side <;> exact .ok
  | block name parent min max step ih => cases side <;> exact .ok
  | sub name parent region ih =>
    cases region with
    | left thickness =>
      cases side with
      | lower => exact ih
      | upper =>
        exact .bind ih fun _ => .bind LinExpr.add_overflows fun _ => LinExpr.subInt_overflows
    | middle left right =>
      cases side with
      | lower => exact .bind ih fun _ => LinExpr.add_overflows
      | upper => exact .bind ih fun _ => LinExpr.sub_overflows
    | right thickness =>
      cases side with
      | lower =>
        exact .bind ih fun _ => .bind LinExpr.sub_overflows fun _ => LinExpr.addInt_overflows
      | upper => exact ih

theorem blockOver_overflows {s : String} {d : Dimension} : OnlyOverflows (blockOver s d) :=
  .bind bound_overflows fun _ => .bind bound_overflows fun _ => .pure

theorem blockWithin_overflows {s : String} {d : Dimension} {size : Option LinExpr} :
    OnlyOverflows (blockWithin s d size) :=
  .bind LinExpr.add_overflows fun _ => .bind LinExpr.subInt_overflows fun _ => .pure

end Dimension

namespace Blocking

theorem nested_overflows {name : Nat → String} {n level : Nat} {outer : Dimension} :
    OnlyOverflows (nested name n level outer) := by
  induction n generalizing level outer with
  | zero => exact .ok
  | succ n ih => exact .bind Dimension.blockWithin_overflows fun _ => .bind ih fun _ => .pure

theorem blocksOver_overflows {b : Blocking} {d : Dimension} {n : Nat} :
    OnlyOverflows (b.blocksOver d n) :=
  .bind Dimension.blockOver_overflows fun _ => .bind nested_overflows fun _ => .pure

end Blocking

theorem Cluster.Settled.dimensions_nodup {c : Cluster} (h : c.Settled) : c.dimensions.Nodup :=
  IntervalGroup.build_dimensions_nodup h.ispace

namespace Interchange

theorem moved_perm {l : List α} {pos target : Nat} (hle : target ≤ pos) :
    (l.take target ++ l[pos]?.toList ++ (l.take pos).drop target ++ l.drop (pos + 1)).Perm l := by
  have htake : l.take target ++ (l.take pos).drop target = l.take pos := by
    have hmin := List.take_append_drop target (l.take pos)
    rwa [List.take_take, Nat.min_eq_left hle] at hmin
  calc l.take target ++ l[pos]?.toList ++ (l.take pos).drop target ++ l.drop (pos + 1)
    _ = l.take target ++ (l[pos]?.toList ++ (l.take pos).drop target) ++ l.drop (pos + 1) := by
      simp only [List.append_assoc]
    List.Perm _ (l.take target ++ ((l.take pos).drop target ++ l[pos]?.toList) ++
        l.drop (pos + 1)) := (List.perm_append_comm.append_left _).append_right _
    _ = l.take pos ++ l.drop pos := by
      rw [← List.append_assoc, htake, List.append_assoc, ← List.drop_eq_getElem?_toList_append]
    _ = l := List.take_append_drop pos l

/-- Loops over distinct dimensions can be moved outward. -/
theorem exists_moveLoop {c : Cluster} (hnd : c.dimensions.Nodup) {pos target : Nat}
    (hle : target ≤ pos) : ∃ c', moveLoop c pos target = .ok c' := by
  have hmoved := (moved_perm (l := c.ispace.intervals.intervals) hle).map Interval.dim
  obtain ⟨group, hg⟩ := IntervalGroup.exists_build (hmoved.nodup_iff.mpr hnd)
    fun chain hchain => by
      rw [List.mem_singleton.mp hchain]
  unfold moveLoop
  dsimp only
  rw [hg]
  exact ⟨_, rfl⟩

/-- The innermost of some outer loops of a nest is looked for in that nest, so it is found. -/
theorem exists_promote? {c : Cluster} {outer : List IterationInterval} (floor : Nat)
    (hnd : c.dimensions.Nodup) (houter : outer <+: c.loops) :
    ∃ promoted?, promote? c outer floor = .ok promoted? := by
  unfold promote?
  split
  · exact ⟨_, rfl⟩
  rename_i l hl
  have hin : l ∈ c.loops := houter.subset (List.mem_of_getLast? hl)
  split
  · exact ⟨_, rfl⟩
  split
  · rename_i hnone
    obtain ⟨i, hi, rfl⟩ := List.mem_map.mp hin
    have hne := List.findIdx?_eq_none_iff.mp hnone i hi
    simp [IterationInterval.dim] at hne
  · rename_i pos _
    dsimp only
    split
    · exact ⟨_, rfl⟩
    · obtain ⟨moved, hm⟩ := exists_moveLoop hnd (Nat.sub_le pos (hops c l.dim floor pos))
      rw [hm]
      exact ⟨_, rfl⟩

theorem callback_fails {clusters : List Cluster} {outer : List IterationInterval}
    (hnd : ∀ c ∈ clusters, c.dimensions.Nodup) (houter : ∀ c ∈ clusters, outer <+: c.loops) :
    ¬Fails (callback clusters outer) f := by
  intro h
  rcases fails_bind h with h | ⟨-, -, h⟩
  · exact not_fails_modify h
  split at h
  · rename_i c
    rw [List.forall_mem_singleton] at hnd houter
    rcases fails_bind h with h | ⟨state, -, h⟩
    · exact not_fails_get h
    obtain ⟨promoted?, hp⟩ := exists_promote? state.pinnedDepth hnd houter
    rcases fails_bind h with h | ⟨found?, -, h⟩
    · obtain ⟨e, he, -⟩ := mapError_error (fails_lift h)
      rw [hp] at he
      cases he
    · cases found? with
      | none => exact not_fails_pure h
      | some promoted =>
        rcases fails_bind h with h | ⟨-, -, h⟩
        · exact not_fails_modify h
        · exact not_fails_pure h
  · exact not_fails_pure h

theorem Promotion.nodup (h : Promotion xs ys) : ∀ c ∈ ys, c.dimensions.Nodup := by
  obtain ⟨h⟩ := h
  obtain ⟨d, pos, -, -, -, hm⟩ := promote?_cases h
  obtain ⟨chains, group, hg, rfl⟩ := moveLoop_cases hm
  exact List.forall_mem_singleton.mpr (IntervalGroup.build_dimensions_nodup hg)

theorem callback_nodup {clusters : List Cluster} (hnd : ∀ c ∈ clusters, c.dimensions.Nodup)
    (h : returns (callback clusters outer) out) : ∀ c ∈ out, c.dimensions.Nodup :=
  (callback_promotions h).forall_mem (fun _ _ hp _ => hp.nodup) hnd

/-- Interchange of clusters over distinct loops does not fail. -/
theorem apply_fails {clusters : List Cluster} (hnd : ∀ c ∈ clusters, c.dimensions.Nodup) :
    ¬Fails (apply clusters) f := by
  intro h
  rcases fails_bind h with h | ⟨-, -, h⟩
  · exact not_fails_modify h
  · obtain ⟨run, level, outer, hrun, houter, -, h⟩ :=
      Queue.fails_applyFirst (Q := fun _ c => c.dimensions.Nodup)
        (fun _ _ _ _ hxs _ _ hys => callback_nodup hxs hys) hnd h
    refine callback_fails hrun (fun c hc => ?_) h
    exact houter c hc ▸ List.take_prefix _ _

end Interchange

namespace Pipeline

def regroupingPasses : List String := ["toposort", "fuse", "topofuse", "interchange"]

/-- Of these passes only those that fuse can fail. -/
theorem runPass_error {pass : String} (hpass : pass ∈ regroupingPasses)
    (hc : ∀ c ∈ clusters, Cluster.Settled c) (h : runPass config pass clusters = .error f) :
    (pass = "fuse" ∨ pass = "topofuse") ∧ f.FromFusion := by
  simp only [regroupingPasses, List.mem_cons, List.not_mem_nil, or_false] at hpass
  rcases hpass with rfl | rfl | rfl | rfl
  · cases h
  · rcases bind_error h with h | ⟨⟨out, n⟩, -, h⟩
    · exact ⟨.inl rfl, Fusion.apply_fails ⟨0, h⟩⟩
    · cases h
  · rcases bind_error h with h | ⟨⟨out, n⟩, -, h⟩
    · exact ⟨.inr rfl, Fusion.apply_fails ⟨0, h⟩⟩
    · cases h
  · rcases bind_error h with h | ⟨⟨out, state⟩, -, h⟩
    · exact absurd ⟨_, h⟩ (Interchange.apply_fails fun c hin => (hc c hin).dimensions_nodup)
    · cases h

def FailsFusing (pass : String) (f : Failure) : Prop :=
  (pass = "fuse" ∨ pass = "topofuse") ∧ (f = .overflow ∨
    ∃ message, f = .error (.inPass pass (.internal .incomparableBounds message)))

theorem addPass_error {pass : String} (hpass : pass ∈ regroupingPasses)
    (hc : ∀ c ∈ done.clusters, Cluster.Settled c) (h : addPass config done pass = .error f) :
    FailsFusing pass f := by
  rcases bind_error h with h | ⟨⟨out, created⟩, -, h⟩
  · obtain ⟨f', hrun, rfl⟩ := mapError_error h
    obtain ⟨hfuses, rfl | ⟨e, rfl, message, rfl⟩⟩ := runPass_error hpass hc hrun
    · exact ⟨hfuses, .inl rfl⟩
    · exact ⟨hfuses, .inr ⟨message, rfl⟩⟩
  · cases h

theorem addPass_settled {pass : String} (hpass : pass ∈ regroupingPasses)
    (hc : ∀ c ∈ done.clusters, c.Settled) (h : addPass config done pass = .ok next) :
    ∀ c ∈ next.clusters, c.Settled := by
  have hmoves := addPass_moves h
  have hno : pass ≠ "remainder" := by
    rintro rfl
    revert hpass
    decide
  rw [eq_false hno] at hmoves
  exact hmoves.forall_mem (fun _ _ hm => hm.settled) hc

theorem foldlM_error_fusing {passes : List String} {start : Outcome}
    (hpasses : ∀ pass ∈ passes, pass ∈ regroupingPasses) (hc : ∀ c ∈ start.clusters, c.Settled)
    (h : passes.foldlM (addPass config) start = .error f) :
    ∃ pass ∈ passes, FailsFusing pass f := by
  obtain ⟨before, pass, after, done, rfl, hdone, h⟩ := foldlM_error h
  have hsettled : ∀ c ∈ done.clusters, c.Settled :=
    returns_foldlM (P := fun _ (done : Outcome) => ∀ c ∈ done.clusters, c.Settled)
      (returns_ok hdone) hc fun _ pass _ _ hpass hacc hnext =>
        addPass_settled (hpasses pass (List.mem_append_left _ hpass)) hacc hnext
  exact ⟨pass, by simp, addPass_error (hpasses pass (by simp)) hsettled h⟩

/-- An unusable configuration is refused before any pass. Otherwise, for clusters that were read,
toposort, fusion and interchange in any order and number succeed unless arithmetic overflows or
fusion meets bounds without an order, which is reported under the name of the pass that fused;
toposort and interchange alone always succeed. -/
theorem run_failures {j : Json} {clusters : List Cluster} {c : Config}
    (hread : decodeList Cluster.decode j = .ok clusters)
    (hpasses : ∀ pass ∈ c.mode.passes, pass ∈ regroupingPasses) :
    (∀ e, c.validate = .error e → run c clusters = .error (.error e)) ∧
    (c.validate = .ok () →
      ((∃ out, run c clusters = .ok out) ∨ run c clusters = .error .overflow ∨
        ∃ pass ∈ c.mode.passes, (pass = "fuse" ∨ pass = "topofuse") ∧ ∃ message,
          run c clusters = .error (.error (.inPass pass (.internal .incomparableBounds message)))) ∧
      ((∀ pass ∈ c.mode.passes, pass = "toposort" ∨ pass = "interchange") →
        ∃ out, run c clusters = .ok out)) := by
  have hsettled : ∀ c ∈ clusters, c.Settled := fun c hc => by
    obtain ⟨j, hj⟩ := mem_of_decodeList hread c hc
    exact Cluster.settled_of_decode hj
  refine ⟨fun e he => ?_, fun hvalid => ?_⟩
  · unfold run
    rw [he]
    rfl
  have hfails : ∀ f, run c clusters = .error f → ∃ pass ∈ c.mode.passes, FailsFusing pass f := by
    intro f h
    rcases bind_error h with h | ⟨-, -, h⟩
    · rw [hvalid] at h
      cases h
    · rcases bind_error h with h | ⟨done, -, h⟩
      · exact foldlM_error_fusing hpasses hsettled h
      · split at h <;> cases h
  cases hrun : run c clusters with
  | ok out => exact ⟨.inl ⟨out, rfl⟩, fun _ => ⟨out, rfl⟩⟩
  | error f =>
    obtain ⟨pass, hpass, hfuses, hf⟩ := hfails f hrun
    refine ⟨.inr ?_, fun honly => ?_⟩
    · rcases hf with rfl | ⟨message, rfl⟩
      · exact .inl rfl
      · exact .inr ⟨pass, hpass, hfuses, message, rfl⟩
    · rcases honly pass hpass with rfl | rfl <;> simp at hfuses

def unorderedFootprints : List Cluster :=
  let upTo (array symbol : String) : Cluster :=
    { Cluster.single "x" (.around "x" array 0) (.int 1) with
      dspace := ⟨.ofIntervals [.closed (.basic "x") .zero (.symbol symbol)], .empty⟩ }
  [upTo "u" "n", upTo "w" "m"]

theorem run_failures_unordered :
    ∃ j, decodeList Cluster.decode j = .ok unorderedFootprints ∧
      (∀ pass ∈ ["interchange", "topofuse"], pass ∈ regroupingPasses) ∧
      ∃ message, run { Config.standard with mode := .custom ["interchange", "topofuse"] }
          unorderedFootprints =
        .error (.error (.inPass "topofuse" (.internal .incomparableBounds message))) := by
  have hread : decodeList Cluster.decode (encodeList Cluster.encode unorderedFootprints) =
      .ok unorderedFootprints := rfl
  have hpasses : ∀ pass ∈ ["interchange", "topofuse"], pass ∈ regroupingPasses := by decide
  refine ⟨_, hread, hpasses, ?_⟩
  have hfails : ∃ e, run { Config.standard with mode := .custom ["interchange", "topofuse"] }
      unorderedFootprints = .error (.error e) := ⟨_, rfl⟩
  obtain ⟨e, he⟩ := hfails
  obtain ⟨-, hvalid⟩ := run_failures (c :=
    { Config.standard with mode := .custom ["interchange", "topofuse"] }) hread hpasses
  rcases (hvalid rfl).1 with ⟨out, hout⟩ | hover | ⟨pass, hpass, hfuses, message, hm⟩
  · rw [he] at hout
    cases hout
  · rw [he] at hover
    cases hover
  · have hpass : pass ∈ ["interchange", "topofuse"] := hpass
    have heq : pass = "topofuse" := by
      simp only [List.mem_cons, List.not_mem_nil, or_false] at hpass
      rcases hpass with rfl | rfl
      · simp at hfuses
      · rfl
    exact ⟨message, heq ▸ hm⟩

end Pipeline
end LoopNest
