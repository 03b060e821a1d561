import LoopNest.Proofs.LoopScopes
import LoopNest.Proofs.PassFailures
import Mathlib.Data.List.Infix

namespace LoopNest
namespace Interchange

/-- A cluster whose loops are put in another order, in which a loop without dependence components
may have come to stand outside loops that are neither parallel nor of its family. -/
structure Interchanged (c c' : Cluster) : Prop where
  elsewhere : c' = { c with ispace := c.ispace.withIntervals c'.ispace.intervals }
  perm : c'.intervals.Perm c.intervals
  swapped : ∀ e d, Precedes c.dimensions e d → Precedes c'.dimensions d e →
    c.properties.isParallelIndep d ∧ c.properties.isParallel e = false ∧ e.sharesRoot d = false

theorem moveLoop_elsewhere (h : moveLoop c pos target = .ok c') :
    c' = { c with ispace := c.ispace.withIntervals c'.ispace.intervals } := by
  obtain ⟨chains, group, -, rfl⟩ := moveLoop_cases h
  rfl

/-- Promotions change nothing but the intervals and their chains. -/
theorem apply_elsewhere (h : returns (apply clusters) out) :
    List.Forall₂ (fun c c' => c' = { c with ispace := c.ispace.withIntervals c'.ispace.intervals })
      clusters out := by
  have hsteps := (apply_promotions h).pointwise
    (S := fun c c' => ∃ outer floor, promote? c outer floor = .ok (some c'))
    fun as bs ⟨h⟩ => ⟨_, _, rfl, rfl, _, _, h⟩
  refine hsteps.imp fun c c' hc => ?_
  induction hc with
  | refl => rfl
  | tail _ hstep ih =>
    obtain ⟨outer, floor, hstep⟩ := hstep
    obtain ⟨d, pos, -, -, -, hm⟩ := promote?_cases hstep
    rw [moveLoop_elsewhere hm, ih]
    rfl

theorem apply_interchanged {clusters : List Cluster} (hnd : ∀ c ∈ clusters, c.dimensions.Nodup)
    (h : returns (apply clusters) out) : List.Forall₂ Interchanged clusters out := by
  have hin := (List.forall₂_and_left _ _).mpr ⟨hnd, apply_promoted h⟩
  refine (forall₂_both hin (apply_elsewhere h)).imp fun c c' ⟨⟨hc, hp⟩, helse⟩ => ?_
  exact ⟨helse, hp.perm, hp.swapped hc⟩

/-- The loops outside the place a loop is moved to stay in front. -/
theorem moveLoop_keeps (h : moveLoop c pos target = .ok c') : c.loops.take target <+: c'.loops := by
  obtain ⟨group, hg, h⟩ := Returns.of_bind (returns_ok h)
  have htotal := IntervalGroup.build_total hg (List.mem_singleton.mpr rfl)
  have hprefix : c.ispace.intervals.intervals.take target <+: group.intervals := by
    rw [htotal, List.append_assoc, List.append_assoc]
    exact List.prefix_append _ _
  rw [Returns.of_pure h]
  have hmap := hprefix.map fun i => (⟨i, c.ispace.direction i.dim⟩ : IterationInterval)
  rwa [List.map_take] at hmap

/-- No loop is promoted past the depth given. -/
theorem promote?_keeps {c c' : Cluster} (h : promote? c outer floor = .ok (some c')) :
    c.loops.take floor <+: c'.loops := by
  obtain ⟨d, pos, -, -, hn, hm⟩ := promote?_cases h
  have hhops : hops c d floor pos ≤ pos - floor := by
    refine (List.takeWhile_prefix _).length_le.trans ?_
    rw [List.length_reverse, List.length_drop]
    exact Nat.sub_le_sub_right (List.length_take_le _ _) _
  exact (List.take_prefix_take_left (by omega)).trans (moveLoop_keeps hm)

def KeepsShared (p q : Cluster × Cluster) : Prop :=
  ∀ shared, shared <+: p.1.loops → shared <+: q.1.loops →
    shared <+: p.2.loops ∧ shared <+: q.2.loops

structure Pinned (depth : Nat) (xs ys : List Cluster) : Prop where
  kept : List.Forall₂ (fun c c' => c.loops.take depth <+: c'.loops) xs ys
  shared : (xs.zip ys).IsChain KeepsShared

theorem prefix_of_take {l l' shared : List α} (h : l.take n <+: l') (hs : shared <+: l)
    (hn : shared.length ≤ n) : shared <+: l' := by
  refine .trans ?_ h
  rw [List.prefix_iff_eq_take.mp hs]
  exact List.take_prefix_take_left hn

namespace Pinned

variable {depth n : Nat} {xs ys zs xs' ys' : List Cluster}

theorem refl (depth : Nat) (xs : List Cluster) : Pinned depth xs xs where
  kept := List.forall₂_same.mpr fun c _ => List.take_prefix _ _
  shared := by
    obtain ⟨-, hsame⟩ := List.forall₂_iff_zip.mp (List.forall₂_same.mpr fun c (_ : c ∈ xs) => rfl)
    refine (List.pairwise_of_forall_mem_list fun p hp q hq shared hshared hshared' => ?_).isChain
    exact ⟨hsame hp ▸ hshared, hsame hq ▸ hshared'⟩

theorem mono (h : Pinned n xs ys) (hle : depth ≤ n) : Pinned depth xs ys where
  kept := h.kept.imp fun _ _ hk => (List.take_prefix_take_left hle).trans hk
  shared := h.shared

/-- A cluster by itself shares its loops with no other. -/
theorem single {c c' : Cluster} (h : c.loops.take depth <+: c'.loops) : Pinned depth [c] [c'] where
  kept := .cons h .nil
  shared := .singleton _

theorem single_trans {c c' : Cluster} (h : c.loops.take depth <+: c'.loops)
    (h' : Pinned depth [c'] ys) : Pinned depth [c] ys := by
  obtain ⟨c'', ys, hkept, hys, rfl⟩ := List.forall₂_cons_left_iff.mp h'.kept
  obtain rfl := List.forall₂_nil_left_iff.mp hys
  refine single (.trans ?_ hkept)
  have htake := List.IsPrefix.take h depth
  rwa [List.take_take, Nat.min_self] at htake

/-- Parts that share no more loops than are kept, one after the other. -/
theorem append (h : Pinned depth xs ys) (h' : Pinned depth xs' ys')
    (hjoin : ∀ c ∈ xs.getLast?, ∀ d ∈ xs'.head?, ∀ shared, shared <+: c.loops →
      shared <+: d.loops → shared.length ≤ depth) : Pinned depth (xs ++ xs') (ys ++ ys') where
  kept := List.rel_append h.kept h'.kept
  shared := by
    obtain ⟨hlen, hkept⟩ := List.forall₂_iff_zip.mp h.kept
    obtain ⟨hlen', hkept'⟩ := List.forall₂_iff_zip.mp h'.kept
    rw [List.zip_append hlen, List.isChain_append]
    refine ⟨h.shared, h'.shared, fun p hp q hq shared hs hs' => ?_⟩
    have hlast : p.1 ∈ xs.getLast? := by
      rw [← List.map_fst_zip hlen.le, List.getLast?_map]
      exact Option.mem_map_of_mem Prod.fst hp
    have hhead : q.1 ∈ xs'.head? := by
      rw [← List.map_fst_zip hlen'.le, List.head?_map]
      exact Option.mem_map_of_mem Prod.fst hq
    have hle := hjoin p.1 hlast q.1 hhead shared hs hs'
    exact ⟨prefix_of_take (hkept (List.mem_of_getLast? hp)) hs hle,
      prefix_of_take (hkept' (List.mem_of_head? hq)) hs' hle⟩

end Pinned

/-- Which of the enclosing levels are shared: all down to some depth, then none. -/
def Flags (s : State) (depth below : Nat) : Prop :=
  s.shared.take (depth + below) = List.replicate depth true ++ List.replicate below false

theorem pinnedDepth_replicate {s : State} (depth below : Nat)
    (h : s.shared = List.replicate depth true ++ List.replicate below false) :
    s.pinnedDepth = depth := by
  rw [State.pinnedDepth, h]
  simp

theorem Flags.enter (h : Flags s depth below) (isShared : Bool) :
    (s.enter (depth + below + 1) isShared).shared =
      List.replicate depth true ++ List.replicate below false ++ [isShared] := by
  rw [State.enter, Nat.add_sub_cancel, h]

theorem Flags.of_clear (h : Flags s depth (below + 1)) : Flags s depth below := by
  have htake := congrArg (List.take (depth + below)) h
  rw [List.take_take, Nat.min_eq_left (by omega), List.take_append] at htake
  rw [Flags, htake]
  simp

theorem Flags.of_set (h : Flags s (depth + 1) 0) : Flags s depth 0 := by
  have htake := congrArg (List.take depth) h
  rw [List.take_take, Nat.min_eq_left (by omega)] at htake
  rw [Flags, Nat.add_zero, htake]
  simp

/-- What the callback makes of a run and of the state. -/
theorem callback_run {s s' : State} (h : (callback xs outer).run s = .ok (ys, s')) :
    s'.shared = (s.enter outer.length (1 < xs.length)).shared ∧
      ((∃ c promoted?, xs = [c] ∧
          promote? c outer (s.enter outer.length false).pinnedDepth = .ok promoted? ∧
          ys = [promoted?.getD c] ∧ s'.moved = s.moved + promoted?.toList.length) ∨
        xs.length ≠ 1 ∧ ys = xs ∧ s'.moved = s.moved) := by
  obtain ⟨u, t, hmod, h⟩ := run_bind h
  cases hmod
  split at h
  · rename_i c _
    obtain ⟨state, t, hget, h⟩ := run_bind h
    cases hget
    obtain ⟨promoted?, hp, h⟩ := run_lift_bind h
    have hp := mapError_ok hp
    cases promoted? with
    | none =>
      obtain ⟨rfl, rfl⟩ := run_pure h
      exact ⟨rfl, .inl ⟨c, none, rfl, hp, rfl, rfl⟩⟩
    | some promoted =>
      obtain ⟨u, t, hmod, h⟩ := run_bind h
      cases hmod
      obtain ⟨rfl, rfl⟩ := run_pure h
      exact ⟨rfl, .inl ⟨c, some promoted, rfl, hp, rfl, rfl⟩⟩
  · rename_i hmany
    obtain ⟨rfl, rfl⟩ := run_pure h
    refine ⟨rfl, .inr ⟨fun hone => ?_, rfl, rfl⟩⟩
    obtain ⟨c, rfl⟩ := List.length_eq_one_iff.mp hone
    exact hmany c rfl

/-- Clusters in different runs of a level share fewer loops. -/
theorem shared_length_le {c d : Cluster} {level : Nat} {shared : List IterationInterval}
    (hne : c.loops.take (level + 1) ≠ d.loops.take (level + 1)) (hs : shared <+: c.loops)
    (hs' : shared <+: d.loops) : shared.length ≤ level := by
  by_contra hlong
  have htake : ∀ {l : List IterationInterval}, shared <+: l →
      l.take (level + 1) = shared.take (level + 1) := by
    intro l hl
    rw [List.prefix_iff_eq_take.mp hl, List.take_take, Nat.min_eq_left (by omega)]
  exact hne ((htake hs).trans (htake hs').symm)

/-- At a run of one cluster the callback clears the next flag and promotes a loop below the depth to
which flags are set, if it may move at all. At a run of several clusters it sets the next flag, all
flags being set. -/
theorem callback_flags {s s' : State} (h : (callback xs outer).run s = .ok (ys, s'))
    (hlen : outer.length = depth + below + 1) (hflags : Flags s depth below) (hne : xs ≠ [])
    (hsingle : below = 0 ∨ xs.length ≤ 1) :
    (∃ c promoted?, xs = [c] ∧ promote? c outer depth = .ok promoted? ∧ ys = [promoted?.getD c] ∧
        s'.moved = s.moved + promoted?.toList.length ∧ Flags s' depth (below + 1)) ∨
      below = 0 ∧ 1 < xs.length ∧ ys = xs ∧ s'.moved = s.moved ∧ Flags s' (depth + 1) 0 := by
  obtain ⟨hshared, hcases⟩ := callback_run h
  rw [hlen] at hshared hcases
  rw [hflags.enter] at hshared
  rcases hcases with ⟨c, promoted?, rfl, hpromote, hys, hmoved⟩ | ⟨hmany, rfl, hmoved⟩
  · refine .inl ⟨c, promoted?, rfl, ?_, hys, hmoved, ?_⟩
    · rwa [pinnedDepth_replicate depth (below + 1)] at hpromote
      rw [hflags.enter, List.append_assoc, List.replicate_succ']
    · rw [Flags, hshared, List.replicate_succ']
      simp
  · have hlong : 1 < ys.length := by
      have hpos := List.length_pos_of_ne_nil hne
      omega
    obtain rfl := hsingle.resolve_right (Nat.not_le.mpr hlong)
    refine .inr ⟨rfl, hlong, rfl, hmoved, ?_⟩
    rw [Flags, hshared, decide_eq_true hlong]
    simp [List.replicate_succ']

/-- How the queue goes through the clusters below `depth` loops that they share and `below` loops
that only one of them is over: into what it turns them, and how many loops it moves. -/
inductive Visit : Nat → Nat → List Cluster → List Cluster → Nat → Prop
  /-- No nest is deeper. -/
  | done {depth below : Nat} {xs : List Cluster} (h : ∀ c ∈ xs, c.loops.length ≤ depth + below) :
      Visit depth below xs xs 0
  /-- The next loop of a single cluster stays where it is. -/
  | stays {depth below n : Nat} {c : Cluster} {ys : List Cluster}
      (hlong : depth + below < c.loops.length)
      (h : promote? c (c.loops.take (depth + below + 1)) depth = .ok none)
      (rest : Visit depth (below + 1) [c] ys n) : Visit depth below [c] ys n
  /-- The next loop of a single cluster moves outward. -/
  | moves {depth below n : Nat} {c c' : Cluster} {ys : List Cluster}
      (hlong : depth + below < c.loops.length)
      (h : promote? c (c.loops.take (depth + below + 1)) depth = .ok (some c'))
      (rest : Visit depth (below + 1) [c'] ys n) : Visit depth below [c] ys (n + 1)
  /-- Several clusters share one more loop. -/
  | shared {depth n : Nat} {xs ys : List Cluster} {outer : List IterationInterval}
      (hmany : 1 < xs.length) (hlong : outer.length = depth + 1)
      (h : ∀ c ∈ xs, c.loops.take (depth + 1) = outer) (rest : Visit (depth + 1) 0 xs ys n) :
      Visit depth 0 xs ys n
  /-- Neighbours that share no more loops are visited one after the other. -/
  | append {depth below n n' : Nat} {xs ys xs' ys' : List Cluster}
      (h : ∀ c ∈ xs.getLast?, ∀ d ∈ xs'.head?,
        c.loops.take (depth + 1) ≠ d.loops.take (depth + 1))
      (left : Visit depth below xs ys n) (right : Visit depth below xs' ys' n') :
      Visit depth below (xs ++ xs') (ys ++ ys') (n + n')

/-- What is visited run by run is visited as a whole. -/
theorem visit_runs {κ : Type} {runs : List (κ × List Cluster)}
    {f : κ × List Cluster → StateT State (Except Failure) (List Cluster)}
    {outs : List (List Cluster)} {s s' : State} (h : (runs.mapM f).run s = .ok (outs, s'))
    (hflags : Flags s depth below)
    (hrun : ∀ r ∈ runs, ∀ t out u, Flags t depth below → (f r).run t = .ok (out, u) →
      Flags u depth below ∧ ∃ n, u.moved = t.moved + n ∧ Visit depth below r.2 out n)
    (hne : ∀ r ∈ runs, r.2 ≠ [])
    (hapart : runs.IsChain fun r r' => ∀ c ∈ r.2, ∀ d ∈ r'.2,
      c.loops.take (depth + 1) ≠ d.loops.take (depth + 1)) :
    Flags s' depth below ∧ ∃ n, s'.moved = s.moved + n ∧
      Visit depth below (runs.flatMap Prod.snd) outs.flatten n := by
  induction runs generalizing outs s with
  | nil =>
    obtain ⟨rfl, rfl⟩ := run_pure h
    exact ⟨hflags, 0, rfl, .done (List.forall_mem_nil _)⟩
  | cons r runs ih =>
    rw [List.mapM_cons] at h
    obtain ⟨out, t, hr, h⟩ := run_bind h
    obtain ⟨outs, u, hrest, h⟩ := run_bind h
    obtain ⟨rfl, rfl⟩ := run_pure h
    obtain ⟨hrun, hruns⟩ := List.forall_mem_cons.mp hrun
    obtain ⟨-, hne⟩ := List.forall_mem_cons.mp hne
    obtain ⟨ht, n, hn, hfirst⟩ := hrun s out t hflags hr
    obtain ⟨hu, n', hn', hothers⟩ := ih hrest ht hruns hne hapart.tail
    refine ⟨hu, n + n', by omega, ?_⟩
    rw [List.flatMap_cons, List.flatten_cons]
    refine .append (fun c hc d hd => ?_) hfirst hothers
    cases runs with
    | nil => cases hd
    | cons r' runs =>
      rw [List.flatMap_cons, List.head?_append_of_ne_nil _ (hne r' List.mem_cons_self)] at hd
      exact (List.isChain_cons_cons.mp hapart).1 c (List.mem_of_getLast? hc) d
        (List.mem_of_head? hd)

theorem promote?_length {c c' : Cluster} (h : promote? c outer floor = .ok (some c')) :
    c'.loops.length = c.loops.length := by
  have hperm := ((Promoted.refl c).step h).perm.map Interval.dim
  rw [Cluster.length_loops, Cluster.length_loops]
  exact hperm.length_eq

/-- With enough levels, the queue visits the clusters and counts the loops that move. -/
theorem applyFirst_visits {levels depth below : Nat} {xs ys : List Cluster} {s s' : State}
    (h : (Queue.applyFirst Cluster.loops callback levels xs (depth + below + 1)).run s =
      .ok (ys, s'))
    (hflags : Flags s depth below) (hsingle : below = 0 ∨ xs.length ≤ 1)
    (hlevels : ∀ c ∈ xs, c.loops.length ≤ depth + below + levels) :
    Flags s' depth below ∧ ∃ n, s'.moved = s.moved + n ∧ Visit depth below xs ys n := by
  induction levels generalizing depth below xs ys s s' with
  | zero =>
    obtain ⟨rfl, rfl⟩ := run_pure h
    exact ⟨hflags, 0, rfl, .done hlevels⟩
  | succ levels ih =>
    rw [Queue.applyFirst] at h
    obtain ⟨outs, t, hmap, h⟩ := run_bind h
    obtain ⟨rfl, rfl⟩ := run_pure h
    have hvisit := visit_runs hmap hflags ?_ (fun r hr => (run_of_mem_runsBy hr).1) ?_
    · rwa [Queue.groupRuns, runsBy_flatMap] at hvisit
    · rintro ⟨key, run⟩ hrun t out u ht hout
      obtain ⟨hne, hkey⟩ := run_of_mem_runsBy hrun
      have hlevels : ∀ c ∈ run, c.loops.length ≤ depth + below + (levels + 1) :=
        fun c hc => hlevels c (mem_of_mem_runsBy hrun c hc)
      dsimp only at hout
      split at hout
      · rename_i hshort
        obtain ⟨rfl, rfl⟩ := run_pure hout
        refine ⟨ht, 0, rfl, .done fun c hc => ?_⟩
        rw [← hkey c hc, List.length_take] at hshort
        omega
      · rename_i hlong
        have hlen : key.length = depth + below + 1 := by
          obtain ⟨c, hc⟩ := List.exists_mem_of_ne_nil run hne
          refine le_antisymm ?_ (Nat.not_lt.mp hlong)
          rw [← hkey c hc]
          exact List.length_take_le _ _
        obtain ⟨applied, v, hc, hrest⟩ := run_bind hout
        rcases callback_flags hc hlen ht hne
          (hsingle.imp_right (length_le_of_mem_runsBy hrun).trans) with
          ⟨c, promoted?, rfl, hpromote, rfl, hmoved, hclear⟩ | ⟨rfl, hmany, rfl, hmoved, hset⟩
        · have hlevels := List.forall_mem_singleton.mp hlevels
          obtain rfl := List.forall_mem_singleton.mp hkey
          have hdeep : depth + below < c.loops.length := by
            rw [List.length_take] at hlen
            omega
          cases promoted? with
          | none =>
            obtain ⟨hu, n, hn, hvisit⟩ := @ih depth (below + 1) _ _ _ _ hrest hclear (.inr le_rfl)
              (List.forall_mem_singleton.mpr (by
                rw [Option.getD_none]
                omega))
            exact ⟨hu.of_clear, n, hn.trans (congrArg (· + n) hmoved), .stays hdeep hpromote hvisit⟩
          | some c' =>
            obtain ⟨hu, n, hn, hvisit⟩ := @ih depth (below + 1) _ _ _ _ hrest hclear (.inr le_rfl)
              (List.forall_mem_singleton.mpr (by
                rw [Option.getD_some, promote?_length hpromote]
                omega))
            refine ⟨hu.of_clear, n + 1, ?_, .moves hdeep hpromote hvisit⟩
            rw [hn, hmoved]
            exact Nat.add_right_comm _ _ _
        · obtain ⟨hu, n, hn, hvisit⟩ := @ih (depth + 1) 0 _ _ _ _ hrest hset (.inl rfl)
            fun c hc => (hlevels c hc).trans (by omega)
          exact ⟨hu.of_set, n, hmoved ▸ hn, .shared hmany hlen hkey hvisit⟩
    · refine (runsBy_chain _ xs).imp_of_mem_imp fun r r' hr hr' hne c hc d hd => ?_
      have hkeys : c.loops.take (depth + below + 1) ≠ d.loops.take (depth + below + 1) := by
        rwa [(run_of_mem_runsBy hr).2 c hc, (run_of_mem_runsBy hr').2 d hd]
      have hin := mem_of_mem_runsBy hr c hc
      have hin' := mem_of_mem_runsBy hr' d hd
      rcases hsingle with rfl | hone
      · exact hkeys
      · cases xs with
        | nil => cases hin
        | cons e xs =>
          obtain rfl := List.length_eq_zero_iff.mp (Nat.le_zero.mp (Nat.le_of_succ_le_succ hone))
          rw [List.mem_singleton.mp hin, List.mem_singleton.mp hin'] at hkeys
          exact absurd rfl hkeys

/-- A run of interchange is a visit of all its clusters. -/
theorem apply_visits {s s' : State} (h : (apply clusters).run s = .ok (out, s')) :
    ∃ n, s'.moved = s.moved + n ∧ Visit 0 0 clusters out n := by
  obtain ⟨u, t, hmod, hqueue⟩ := run_bind h
  cases hmod
  refine (@applyFirst_visits _ 0 0 _ _ _ _ hqueue rfl (.inl rfl) fun c hc => ?_).2
  rw [Nat.zero_add]
  exact Queue.length_le_maxDepth hc

/-- Down to the depth to which loops are shared, clusters keep their loops. -/
theorem Visit.pinned {depth below n : Nat} {xs ys : List Cluster}
    (h : Visit depth below xs ys n) : Pinned depth xs ys := by
  induction h with
  | done _ => exact .refl _ _
  | stays _ _ _ ih => exact ih
  | moves _ h _ ih => exact .single_trans (promote?_keeps h) ih
  | shared _ _ _ _ ih => exact ih.mono (Nat.le_succ _)
  | append h _ _ ihleft ihright =>
    exact ihleft.append ihright fun c hc d hd _ hs hs' => shared_length_le (h c hc d hd) hs hs'

theorem apply_runs {clusters : List Cluster} (hnd : ∀ c ∈ clusters, c.dimensions.Nodup)
    (s : State) : ∃ out s', (apply clusters).run s = .ok (out, s') := by
  cases hrun : (apply clusters).run s with
  | error f => exact absurd ⟨s, hrun⟩ (apply_fails hnd)
  | ok r => exact ⟨r.1, r.2, rfl⟩

/-- Interchange of clusters over distinct loops succeeds. Every cluster stays in its place and is
changed only in the order of its loops, where a loop comes to stand outside another one only if it
has no dependence component and passes a loop that is neither parallel nor of its family. The outer
loops that a cluster shares with a neighbour stay where they are. -/
theorem apply_permutes_locally {clusters : List Cluster}
    (hnd : ∀ c ∈ clusters, c.dimensions.Nodup) (s : State) :
    ∃ out s', (apply clusters).run s = .ok (out, s') ∧
      List.Forall₂ Interchanged clusters out ∧ (clusters.zip out).IsChain KeepsShared := by
  obtain ⟨out, s', hrun⟩ := apply_runs hnd s
  obtain ⟨n, -, hvisit⟩ := apply_visits hrun
  exact ⟨out, s', hrun, apply_interchanged hnd ⟨s, s', hrun⟩, hvisit.pinned.shared⟩

def outerShared : List Cluster :=
  [.along [.basic "t", .basic "x", .basic "y"] [] [(.basic "y", [.parallelIndep])],
    .along [.basic "t"] [] []]

/-- The loop over `y` moves past the one over `x`, but not past the shared one. -/
theorem apply_permutes_locally_outerShared :
    (∀ c ∈ outerShared, c.dimensions.Nodup) ∧
    ∃ out s', (apply outerShared).run .empty = .ok (out, s') ∧
      (out.map fun c => c.dimensions.map Dimension.name) = [["t", "y", "x"], ["t"]] ∧
      List.Forall₂ Interchanged outerShared out ∧ (outerShared.zip out).IsChain KeepsShared := by
  have hnd : ∀ c ∈ outerShared, c.dimensions.Nodup := by decide
  obtain ⟨out, s', hrun, hlocal, hshared⟩ := apply_permutes_locally hnd .empty
  have hread : ((apply outerShared).run .empty).toOption.map
      (fun r => r.1.map fun c => c.dimensions.map Dimension.name) =
        some [["t", "y", "x"], ["t"]] := by decide +kernel
  rw [hrun] at hread
  exact ⟨hnd, out, s', hrun, Option.some.inj hread, hlocal, hshared⟩

end Interchange
end LoopNest
