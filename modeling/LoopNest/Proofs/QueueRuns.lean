import LoopNest.Proofs.Returns
import LoopNest.Proofs.Rewriting
import LoopNest.Queue
import Mathlib.Algebra.GroupWithZero.Nat
import Mathlib.Data.List.Chain

namespace LoopNest

section
variable {ε κ : Type} [DecidableEq κ] (key : ε → κ)

/-- The runs, put together in order, are the sequence. -/
theorem runsBy_flatMap (l : List ε) : (runsBy key l).flatMap Prod.snd = l := by
  induction l with
  | nil => rfl
  | cons e rest ih =>
    rw [runsBy]
    cases hr : runsBy key rest with
    | nil =>
      rw [hr] at ih
      simp [← ih]
    | cons r runs =>
      obtain ⟨k, run⟩ := r
      rw [hr] at ih
      by_cases hk : key e = k <;> simp [hk, ← ih]

theorem sum_runsBy (size : ε → Nat) (l : List ε) :
    ((runsBy key l).map fun r => (r.2.map size).sum).sum = (l.map size).sum := by
  conv_rhs => rw [← runsBy_flatMap key l, List.map_flatMap, List.flatMap_def, List.sum_flatten,
    List.map_map]
  rfl

/-- A run is not empty, and all its elements have its key. -/
theorem run_of_mem_runsBy {key : ε → κ} {l : List ε} (h : (k, run) ∈ runsBy key l) :
    run ≠ [] ∧ ∀ e ∈ run, key e = k := by
  induction l generalizing k run with
  | nil => cases h
  | cons e rest ih =>
    rw [runsBy] at h
    cases hr : runsBy key rest with
    | nil =>
      rw [hr] at h
      simp only [List.mem_singleton, Prod.mk.injEq] at h
      simp [h]
    | cons r runs =>
      obtain ⟨k', run'⟩ := r
      rw [hr] at h ih
      by_cases hk : key e = k'
      · simp only [hk, ↓reduceIte, List.mem_cons, Prod.mk.injEq] at h
        rcases h with ⟨rfl, rfl⟩ | h
        · exact ⟨by simp, List.forall_mem_cons.mpr ⟨hk, (ih List.mem_cons_self).2⟩⟩
        · exact ih (List.mem_cons_of_mem _ h)
      · simp only [hk, ↓reduceIte, List.mem_cons, Prod.mk.injEq] at h
        rcases h with ⟨rfl, rfl⟩ | h
        · simp
        · exact ih (by simpa using h)

theorem mem_of_mem_runsBy {key : ε → κ} {l : List ε} (h : (k, run) ∈ runsBy key l) :
    ∀ e ∈ run, e ∈ l := by
  intro e he
  rw [← runsBy_flatMap key l]
  exact List.mem_flatMap.mpr ⟨(k, run), h, he⟩

theorem length_le_of_mem_runsBy {key : ε → κ} {l : List ε} (h : (k, run) ∈ runsBy key l) :
    run.length ≤ l.length := by
  have hsub := List.sublist_flatten_of_mem (List.mem_map_of_mem (f := Prod.snd) h)
  rw [← List.flatMap_def, runsBy_flatMap] at hsub
  exact hsub.length_le

/-- Runs next to each other have different keys, or they were one run. -/
theorem runsBy_chain (l : List ε) : (runsBy key l).IsChain fun r s => r.1 ≠ s.1 := by
  induction l with
  | nil => exact .nil
  | cons e rest ih =>
    rw [runsBy]
    cases hr : runsBy key rest with
    | nil => exact .singleton _
    | cons r runs =>
      obtain ⟨k, run⟩ := r
      rw [hr] at ih
      by_cases hk : key e = k
      · simp only [hk, ↓reduceIte]
        cases runs with
        | nil => exact .singleton _
        | cons r' runs =>
          obtain ⟨hne, hrest⟩ := List.isChain_cons_cons.mp ih
          exact .cons_cons hne hrest
      · simp only [hk, ↓reduceIte]
        exact .cons_cons hk ih

variable {key}

/-- The elements on both sides of a run have other keys than the run. -/
theorem neighbours_of_runsBy {pre post : List (κ × List ε)}
    (h : runsBy key l = pre ++ (k, run) :: post) :
    (∀ e ∈ (pre.flatMap Prod.snd).getLast?, key e ≠ k) ∧
      ∀ e ∈ (post.flatMap Prod.snd).head?, key e ≠ k := by
  have hrun : ∀ r ∈ pre ++ (k, run) :: post, r.2 ≠ [] ∧ ∀ e ∈ r.2, key e = r.1 := by
    intro r hr
    rw [← h] at hr
    exact run_of_mem_runsBy hr
  have hchain := h ▸ runsBy_chain key l
  constructor
  · intro e he
    rcases List.eq_nil_or_concat pre with rfl | ⟨pre, r, rfl⟩
    · cases he
    · obtain ⟨hne, hkey⟩ := hrun r (by simp)
      have hk : r.1 ≠ k := by
        rw [List.concat_eq_append, List.append_assoc] at hchain
        exact (List.isChain_cons_cons.mp hchain.right_of_append).1
      rw [List.concat_eq_append, List.flatMap_append, List.flatMap_singleton,
        List.getLast?_append_of_ne_nil _ hne] at he
      exact hkey e (List.mem_of_getLast? he) ▸ hk
  · intro e he
    cases post with
    | nil => cases he
    | cons r post =>
      obtain ⟨hne, hkey⟩ := hrun r (by simp)
      have hk : k ≠ r.1 := (List.isChain_cons_cons.mp hchain.right_of_append).1
      rw [List.flatMap_cons, List.head?_append_of_ne_nil _ hne] at he
      exact hkey e (List.mem_of_head? he) ▸ hk.symm

omit [DecidableEq κ] in
/-- An element of the parts of a sequence is in one of them. -/
theorem exists_part_around {runs : List (κ × List ε)} (before : List ε)
    (h : runs.flatMap Prod.snd = before ++ e :: rest) :
    ∃ pre k b a post, runs = pre ++ (k, b ++ e :: a) :: post ∧
      before = pre.flatMap Prod.snd ++ b ∧ rest = a ++ post.flatMap Prod.snd := by
  induction runs generalizing before with
  | nil => simp at h
  | cons r runs ih =>
    obtain ⟨k', run⟩ := r
    rw [List.flatMap_cons] at h
    dsimp only at h
    rcases List.append_eq_append_iff.mp h with ⟨before', rfl, htail⟩ | ⟨after, rfl, hrest⟩
    · obtain ⟨pre, k, b, a, post, rfl, rfl, rfl⟩ := ih before' htail
      exact ⟨(k', run) :: pre, k, b, a, post, rfl, by simp, rfl⟩
    · cases after with
      | nil =>
        obtain ⟨pre, k, b, a, post, rfl, hnil, rfl⟩ := ih [] hrest.symm
        refine ⟨(k', before ++ []) :: pre, k, b, a, post, rfl, ?_, rfl⟩
        rw [List.flatMap_cons, List.append_assoc, ← hnil, List.append_nil, List.append_nil]
      | cons x a =>
        obtain ⟨rfl, rfl⟩ := List.cons.inj hrest
        exact ⟨[], k', before, a, runs, rfl, rfl, rfl⟩

/-- Neighbours with one key are in one run. -/
theorem exists_run_around (before after : List ε) {block : List ε} (hne : block ≠ [])
    (hkey : ∀ e ∈ block, key e = k) :
    ∃ pre b a post, runsBy key (before ++ block ++ after) = pre ++ (k, b ++ block ++ a) :: post ∧
      before = pre.flatMap Prod.snd ++ b ∧ after = a ++ post.flatMap Prod.snd := by
  obtain ⟨e, rest, rfl⟩ := List.exists_cons_of_ne_nil hne
  have hall : (runsBy key (before ++ (e :: rest) ++ after)).flatMap Prod.snd =
      before ++ e :: (rest ++ after) := by
    rw [runsBy_flatMap, List.append_assoc, List.cons_append]
  obtain ⟨pre, k', b, a, post, hruns, rfl, hrest⟩ := exists_part_around before hall
  obtain rfl : k' = k := by
    have hrun := run_of_mem_runsBy (hruns ▸ List.mem_append_right pre List.mem_cons_self)
    exact (hrun.2 e (by simp)).symm.trans (hkey e List.mem_cons_self)
  rcases List.append_eq_append_iff.mp hrest with ⟨a', rfl, rfl⟩ | ⟨out, rfl, hout⟩
  · exact ⟨pre, b, a', post, by simpa using hruns, rfl, rfl⟩
  · -- What sticks out of the run has its key and comes next to it.
    cases out with
    | nil => exact ⟨pre, b, [], post, by simpa using hruns, rfl, by simpa using hout.symm⟩
    | cons x out =>
      refine absurd (hkey x (by simp)) ((neighbours_of_runsBy hruns).2 x ?_)
      rw [hout]
      rfl

end

structure Partwise {ε : Type} (S : List ε → List ε → Prop) : Prop where
  refl : ∀ xs, S xs xs
  trans : ∀ {xs ys zs}, S xs ys → S ys zs → S xs zs
  append : ∀ {xs ys xs' ys'}, S xs ys → S xs' ys' → S (xs ++ xs') (ys ++ ys')

theorem Partwise.flatten {ε κ : Type} {S : List ε → List ε → Prop} (hS : Partwise S)
    {runs : List (κ × List ε)} {outs : List (List ε)}
    (h : List.Forall₂ (fun r out => S r.2 out) runs outs) :
    S (runs.flatMap Prod.snd) outs.flatten := by
  induction h with
  | nil => exact hS.refl []
  | cons h _ ih =>
    rw [List.flatMap_cons, List.flatten_cons]
    exact hS.append h ih

theorem Rewrites.partwise (R : List Cluster → List Cluster → Prop) : Partwise (Rewrites R) where
  refl := Rewrites.refl
  trans := Rewrites.trans
  append := Rewrites.append

namespace Queue

section
variable {ε : Type} {m : Type → Type} [Monad m] [Returns m] [LawfulMonad m]
  {S : List ε → List ε → Prop} {loops : ε → List IterationInterval}
  {callback : List ε → List IterationInterval → m (List ε)}

theorem returns_divideFirstWithin (hS : Partwise S)
    (hcb : ∀ xs outer ys, returns (callback xs outer) ys → S xs ys) {levels : Nat}
    (h : returns (divideFirstWithin loops callback levels xs level outer) ys) : S xs ys := by
  induction levels generalizing xs level outer ys with
  | zero => exact hcb _ _ _ h
  | succ levels ih =>
    rw [divideFirstWithin] at h
    obtain ⟨processed, hp, hout⟩ := Returns.of_bind h
    have hparts : List.Forall₂ (fun r out => S r.2 out) (groupRuns loops level xs) processed := by
      refine (returns_mapM hp).imp ?_
      intro r out hrun
      obtain ⟨key, run⟩ := r
      dsimp only at hrun
      split at hrun
      · rw [Returns.of_pure hrun]
        exact hS.refl run
      · exact ih hrun
    have hall := hS.flatten hparts
    rw [groupRuns, runsBy_flatMap] at hall
    exact hS.trans hall (hcb _ _ _ hout)

theorem returns_applyFirst (hS : Partwise S)
    (hcb : ∀ xs outer ys, returns (callback xs outer) ys → S xs ys) {levels : Nat}
    (h : returns (applyFirst loops callback levels xs level) ys) : S xs ys := by
  induction levels generalizing xs level ys with
  | zero =>
    rw [Returns.of_pure h]
    exact hS.refl xs
  | succ levels ih =>
    rw [applyFirst] at h
    obtain ⟨processed, hp, hout⟩ := Returns.of_bind h
    have hparts : List.Forall₂ (fun r out => S r.2 out) (groupRuns loops level xs) processed := by
      refine (returns_mapM hp).imp ?_
      intro r out hrun
      obtain ⟨key, run⟩ := r
      dsimp only at hrun
      split at hrun
      · rw [Returns.of_pure hrun]
        exact hS.refl run
      · obtain ⟨applied, hc, hrest⟩ := Returns.of_bind hrun
        exact hS.trans (hcb _ _ _ hc) (ih hrest)
    have hall := hS.flatten hparts
    rw [groupRuns, runsBy_flatMap] at hall
    rw [Returns.of_pure hout]
    exact hall

/-- What every visit of a queue that keeps the number of elements takes back to the elements before
it holds of all elements and what becomes of them, if it holds of those that are not deep enough and
once the levels are used up. -/
theorem forall₂_of_returns_applyFirst {P : Nat → Nat → ε → ε → Prop} {levels level : Nat}
    (hzero : ∀ level e, P 0 level e e)
    (hshort : ∀ n level e, (loops e).length < level → P (n + 1) level e e)
    (hcb : ∀ n level xs outer ys zs, (∀ e ∈ xs, (loops e).take level = outer) →
      level ≤ outer.length → returns (callback xs outer) ys →
      List.Forall₂ (P n (level + 1)) ys zs → List.Forall₂ (P (n + 1) level) xs zs)
    (h : returns (applyFirst loops callback levels xs level) ys) :
    List.Forall₂ (P levels level) xs ys := by
  induction levels generalizing xs level ys with
  | zero =>
    rw [Returns.of_pure h]
    exact List.forall₂_same.mpr fun e _ => hzero level e
  | succ levels ih =>
    rw [applyFirst] at h
    obtain ⟨processed, hp, hout⟩ := Returns.of_bind h
    have hruns : ∀ r ∈ groupRuns loops level xs, ∀ e ∈ r.2, (loops e).take level = r.1 :=
      fun r hr => (run_of_mem_runsBy hr).2
    have hparts : List.Forall₂ (fun r out => List.Forall₂ (P (levels + 1) level) r.2 out)
        (groupRuns loops level xs) processed := by
      refine ((List.forall₂_and_left _ _).mpr ⟨hruns, returns_mapM hp⟩).imp ?_
      intro r out ⟨hkey, hrun⟩
      obtain ⟨key, run⟩ := r
      dsimp only at hrun hkey
      split at hrun
      · rename_i hlt
        rw [Returns.of_pure hrun]
        refine List.forall₂_same.mpr fun e he => hshort levels level e ?_
        rw [← hkey e he, List.length_take] at hlt
        omega
      · rename_i hlong
        obtain ⟨applied, hc, hrest⟩ := Returns.of_bind hrun
        exact hcb levels level run key applied out hkey (Nat.not_lt.mp hlong) hc (ih hrest)
    have hall := List.rel_flatten (List.forall₂_map_left_iff.mpr hparts)
    rw [← List.flatMap_def, groupRuns, runsBy_flatMap] at hall
    rw [Returns.of_pure hout]
    exact hall

omit [Returns m] in
/-- A queue whose callback changes no run of the elements changes nothing. -/
theorem applyFirst_eq_pure {levels level : Nat} (hcb : ∀ level run outer, (∀ e ∈ run, e ∈ xs) →
      (∀ e ∈ run, (loops e).take level = outer) → callback run outer = pure run) :
    applyFirst loops callback levels xs level = pure xs := by
  induction levels generalizing xs level with
  | zero => rfl
  | succ levels ih =>
    have hruns : ∀ r ∈ groupRuns loops level xs, (if r.1.length < level then pure r.2
        else callback r.2 r.1 >>= fun ys => applyFirst loops callback levels ys (level + 1)) =
          (pure r.2 : m (List ε)) := by
      intro r hr
      have hin : ∀ e ∈ r.2, e ∈ xs := mem_of_mem_runsBy hr
      rw [hcb level r.2 r.1 hin (run_of_mem_runsBy hr).2, pure_bind,
        ih fun level run outer hrun => hcb level run outer fun e he => hin e (hrun e he)]
      exact ite_self _
    refine (congrArg (· >>= fun processed => pure processed.flatten) (mapM_eq_pure hruns)).trans ?_
    rw [pure_bind, ← List.flatMap_def, groupRuns, runsBy_flatMap]

end

theorem foldl_max_le_iff {lengths : List Nat} {n init : Nat} :
    lengths.foldl max init ≤ n ↔ init ≤ n ∧ ∀ k ∈ lengths, k ≤ n := by
  induction lengths generalizing init with
  | nil => simp
  | cons k rest ih => simp only [List.foldl_cons, ih, List.forall_mem_cons, Nat.max_le, and_assoc]

theorem le_foldl_max {lengths : List Nat} {n init : Nat} (h : n ∈ lengths) :
    n ≤ lengths.foldl max init :=
  (foldl_max_le_iff.mp (Nat.le_refl _)).2 n h

/-- No nest is deeper than the deepest. -/
theorem length_le_maxDepth {ε : Type} {loops : ε → List IterationInterval} {elements : List ε}
    {e : ε} (h : e ∈ elements) : (loops e).length ≤ maxDepth loops elements :=
  le_foldl_max (List.mem_map_of_mem h)

theorem concat_collapse (outer : List IterationInterval) (groups : List ClusterGroup) :
    ClusterGroup.concat (collapse outer groups) = ClusterGroup.concat groups := by
  cases groups <;> simp [collapse, ClusterGroup.concat]

theorem concat_ofCluster (clusters : List Cluster) :
    ClusterGroup.concat (clusters.map ClusterGroup.ofCluster) = clusters := by
  rw [ClusterGroup.concat, List.flatMap_map]
  exact List.flatMap_singleton' clusters

/-- What a callback does to the clusters of every run, the queue does to all of them. -/
theorem returns_processGroups {m : Type → Type} [Monad m] [Returns m] [LawfulMonad m]
    {R : List Cluster → List Cluster → Prop}
    {callback : List ClusterGroup → List IterationInterval → m (List ClusterGroup)}
    (hcb : ∀ groups outer out, returns (callback groups outer) out →
      Rewrites R (ClusterGroup.concat groups) (ClusterGroup.concat out))
    (h : returns (processGroups callback clusters) out) : Rewrites R clusters out := by
  obtain ⟨groups, hg, rfl⟩ := returns_map h
  have hS : Partwise fun gs hs => Rewrites R (ClusterGroup.concat gs) (ClusterGroup.concat hs) := by
    refine ⟨fun gs => Rewrites.refl _, Rewrites.trans, ?_⟩
    intro gs hs gs' hs' h h'
    simp only [ClusterGroup.concat, List.flatMap_append]
    exact h.append h'
  have hrun := returns_divideFirstWithin hS (fun gs outer hs hhs => ?_) hg
  · rwa [concat_ofCluster] at hrun
  · obtain ⟨r, hr, rfl⟩ := returns_map hhs
    rw [concat_collapse]
    exact hcb _ _ _ hr

section
variable {ε σ φ : Type} {loops : ε → List IterationInterval}
  {callback : List ε → List IterationInterval → StateT σ (Except φ) (List ε)} {f : φ}

theorem fails_divideFirstWithin {levels level : Nat}
    (h : Fails (divideFirstWithin loops callback levels xs level outer) f) :
    ∃ ys outer, Fails (callback ys outer) f := by
  induction levels generalizing xs level outer with
  | zero => exact ⟨xs, outer, h⟩
  | succ levels ih =>
    rw [divideFirstWithin] at h
    rcases fails_bind h with h | ⟨processed, -, h⟩
    · obtain ⟨⟨key, run⟩, -, h⟩ := fails_mapM h
      dsimp only at h
      split at h
      · exact absurd h not_fails_pure
      · exact ih h
    · exact ⟨_, outer, h⟩

theorem fails_processGroups
    {callback : List ClusterGroup → List IterationInterval →
      StateT σ (Except φ) (List ClusterGroup)}
    (h : Fails (processGroups callback clusters) f) :
    ∃ groups outer, Fails (callback groups outer) f := by
  obtain ⟨groups, outer, h⟩ := fails_divideFirstWithin (fails_map h)
  exact ⟨groups, outer, fails_map h⟩

/-- What a callback keeps true of the elements, level by level, is true of a run that shares the
loops it is called with; a queue that applies its callback first fails at such a run. -/
theorem fails_applyFirst {Q : Nat → ε → Prop} {levels level : Nat}
    (hcb : ∀ level xs outer ys, (∀ e ∈ xs, Q level e) →
      (∀ e ∈ xs, (loops e).take level = outer) → level ≤ outer.length →
      returns (callback xs outer) ys → ∀ e ∈ ys, Q (level + 1) e)
    (hxs : ∀ e ∈ xs, Q level e) (h : Fails (applyFirst loops callback levels xs level) f) :
    ∃ ys level outer, (∀ e ∈ ys, Q level e) ∧ (∀ e ∈ ys, (loops e).take level = outer) ∧
      level ≤ outer.length ∧ Fails (callback ys outer) f := by
  induction levels generalizing xs level with
  | zero => exact absurd h not_fails_pure
  | succ levels ih =>
    rw [applyFirst] at h
    rcases fails_bind h with h | ⟨processed, -, h⟩
    · obtain ⟨⟨key, run⟩, hrun, h⟩ := fails_mapM h
      have hQ : ∀ e ∈ run, Q level e := fun e he => hxs e (mem_of_mem_runsBy hrun e he)
      have hkey := (run_of_mem_runsBy hrun).2
      dsimp only at h
      split at h
      · exact absurd h not_fails_pure
      · rename_i hlong
        have hlong := Nat.not_lt.mp hlong
        rcases fails_bind h with h | ⟨ys, hys, h⟩
        · exact ⟨run, level, key, hQ, hkey, hlong, h⟩
        · exact ih (hcb level run key ys hQ hkey hlong hys) h
    · exact absurd h not_fails_pure

end

end Queue

structure Progress {σ : Type} (le : σ → σ → Prop) : Prop where
  refl : ∀ s, le s s
  trans : ∀ {s t u}, le s t → le t u → le s u

/-- Started in the state, the computation moves it on, and its result has the property there. -/
def Yields {ε σ β : Type} (le : σ → σ → Prop) (R : σ → β → Prop) (x : StateT σ (Except ε) β)
    (s : σ) : Prop :=
  ∀ y s', x.run s = .ok (y, s') → le s s' ∧ R s' y

section
variable {ε σ α β : Type} {le : σ → σ → Prop} {P : σ → α → Prop} {R : σ → β → Prop} {s : σ}

theorem Yields.pure (hle : Progress le) {b : β} (h : R s b) :
    Yields le R (Pure.pure b : StateT σ (Except ε) β) s := by
  intro y s' hrun
  obtain ⟨rfl, rfl⟩ := run_pure hrun
  exact ⟨hle.refl s', h⟩

theorem Yields.bind (hle : Progress le) {x : StateT σ (Except ε) α}
    {f : α → StateT σ (Except ε) β} (hx : Yields le P x s)
    (hf : ∀ a t, le s t → P t a → Yields le R (f a) t) : Yields le R (x >>= f) s := by
  intro y s' hrun
  obtain ⟨a, t, ha, hrun⟩ := run_bind hrun
  obtain ⟨hst, hpa⟩ := hx a t ha
  obtain ⟨hts, hr⟩ := hf a t hst hpa y s' hrun
  exact ⟨hle.trans hst hts, hr⟩

/-- What holds of an element and lasts while the state moves on still holds when the element is
reached. -/
theorem Yields.mapM (hle : Progress le) (hP : ∀ {t u x}, le t u → P t x → P u x)
    (hR : ∀ {t u y}, le t u → R t y → R u y) {f : α → StateT σ (Except ε) β}
    (hf : ∀ t x, P t x → Yields le R (f x) t) {xs : List α} (hxs : ∀ x ∈ xs, P s x) :
    Yields le (fun t ys => ∀ y ∈ ys, R t y) (xs.mapM f) s := by
  induction xs generalizing s with
  | nil => exact .pure hle (by simp)
  | cons x xs ih =>
    obtain ⟨hx, hxs⟩ := List.forall_mem_cons.mp hxs
    rw [List.mapM_cons]
    refine .bind hle (hf s x hx) fun y t hst hy => ?_
    refine .bind hle (ih fun x hin => hP hst (hxs x hin)) fun ys u htu hys => ?_
    exact .pure hle (List.forall_mem_cons.mpr ⟨hR htu hy, hys⟩)

end

namespace Queue

/-- What a callback does to the state and to the elements of a run, the queue does to all. -/
theorem yields_applyFirst {ε σ ε' : Type} {le : σ → σ → Prop} {Q : σ → ε → Prop}
    {loops : ε → List IterationInterval}
    {callback : List ε → List IterationInterval → StateT σ (Except ε') (List ε)}
    (hle : Progress le) (hQ : ∀ {t u e}, le t u → Q t e → Q u e)
    (hcb : ∀ s xs outer, (∀ e ∈ xs, Q s e) →
      Yields le (fun t ys => ∀ e ∈ ys, Q t e) (callback xs outer) s)
    {levels level : Nat} {xs : List ε} {s : σ} (hxs : ∀ e ∈ xs, Q s e) :
    Yields le (fun t ys => ∀ e ∈ ys, Q t e) (applyFirst loops callback levels xs level) s := by
  induction levels generalizing xs level s with
  | zero => exact .pure hle hxs
  | succ levels ih =>
    rw [applyFirst]
    refine .bind hle (P := fun t yss => ∀ ys ∈ yss, ∀ e ∈ ys, Q t e) ?_ fun yss t _ hyss => ?_
    · refine .mapM hle (P := fun t r => ∀ e ∈ r.2, Q t e) (fun hle h e he => hQ hle (h e he))
        (fun hle h e he => hQ hle (h e he)) (fun t r hr => ?_)
        fun r hr e he => hxs e (mem_of_mem_runsBy hr e he)
      obtain ⟨key, run⟩ := r
      dsimp only
      split
      · exact .pure hle hr
      · exact .bind hle (hcb t run key hr) fun ys u _ hys => ih hys
    · refine .pure hle fun e he => ?_
      obtain ⟨ys, hys, he⟩ := List.mem_flatten.mp he
      exact hyss ys hys e he

end Queue

def Counts {φ α : Type} (size : α → Nat) (total : Nat) (x : StateT Nat (Except φ) α) : Prop :=
  ∀ n a n', x.run n = .ok (a, n') → n' + size a = n + total

namespace Counts

variable {φ α β : Type} {p : α → Nat} {q : β → Nat} {total : Nat}

theorem pure {a : α} : Counts p (p a) (Pure.pure a : StateT Nat (Except φ) α) := by
  intro n b n' hrun
  obtain ⟨rfl, rfl⟩ := run_pure hrun
  rfl

theorem bind {x : StateT Nat (Except φ) α} {f : α → StateT Nat (Except φ) β}
    (hx : Counts p total x) (hf : ∀ a, Counts q (p a) (f a)) : Counts q total (x >>= f) := by
  intro n b n' hrun
  obtain ⟨a, t, ha, hrun⟩ := run_bind hrun
  exact (hf a t b n' hrun).trans (hx n a t ha)

theorem map {x : StateT Nat (Except φ) α} {f : α → β} (hx : Counts (fun a => q (f a)) total x) :
    Counts q total (f <$> x) := by
  rw [map_eq_pure_bind]
  exact hx.bind fun a => pure

/-- What is done one element after the other is counted together. -/
theorem mapM {f : α → StateT Nat (Except φ) β} {xs : List α}
    (hf : ∀ x ∈ xs, Counts q (p x) (f x)) :
    Counts (fun ys => (ys.map q).sum) (xs.map p).sum (xs.mapM f) := by
  induction xs with
  | nil => exact pure
  | cons x xs ih =>
    obtain ⟨hx, hxs⟩ := List.forall_mem_cons.mp hf
    intro n ys n' hrun
    rw [List.mapM_cons] at hrun
    obtain ⟨y, t, hy, hrun⟩ := run_bind hrun
    obtain ⟨ys, u, hys, hrun⟩ := run_bind hrun
    obtain ⟨rfl, rfl⟩ := run_pure hrun
    have hfirst := hx n y t hy
    have hrest : n' + (ys.map q).sum = t + (xs.map p).sum := ih hxs t ys n' hys
    simp only [List.map_cons, List.sum_cons]
    omega

end Counts

/-- What a callback counts at every run, the queue counts in all. -/
theorem Queue.counts_divideFirstWithin {ε φ : Type} (size : ε → Nat)
    {loops : ε → List IterationInterval}
    {callback : List ε → List IterationInterval → StateT Nat (Except φ) (List ε)}
    (hcb : ∀ xs outer, Counts (fun ys => (ys.map size).sum) (xs.map size).sum (callback xs outer))
    (levels : Nat) (xs : List ε) (level : Nat) (outer : List IterationInterval) :
    Counts (fun ys => (ys.map size).sum) (xs.map size).sum
      (divideFirstWithin loops callback levels xs level outer) := by
  induction levels generalizing xs level outer with
  | zero => exact hcb xs outer
  | succ levels ih =>
    rw [divideFirstWithin, ← sum_runsBy (fun e => (loops e).take level) size xs]
    refine .bind (.mapM (p := fun r : List IterationInterval × List ε => (r.2.map size).sum)
      (q := fun ys : List ε => (ys.map size).sum) fun r _ => ?_) fun processed => ?_
    · obtain ⟨key, run⟩ := r
      dsimp only
      split
      · exact .pure
      · exact ih run (level + 1) key
    · have hflat : (processed.flatten.map size).sum =
          (processed.map fun ys => (ys.map size).sum).sum := by
        rw [List.map_flatten, List.sum_flatten, List.map_map]
        rfl
      rw [← hflat]
      exact hcb processed.flatten outer

theorem Queue.counts_processGroups {φ : Type}
    {callback : List ClusterGroup → List IterationInterval →
      StateT Nat (Except φ) (List ClusterGroup)}
    (hcb : ∀ groups outer, Counts (fun gs => (ClusterGroup.concat gs).length)
      (ClusterGroup.concat groups).length (callback groups outer)) (clusters : List Cluster) :
    Counts List.length clusters.length (processGroups callback clusters) := by
  have hsize : ∀ groups : List ClusterGroup,
      (groups.map fun g => g.clusters.length).sum = (ClusterGroup.concat groups).length :=
    fun groups => List.length_flatMap.symm
  refine .map ?_
  have hqueue := @counts_divideFirstWithin ClusterGroup φ (fun g => g.clusters.length)
    ClusterGroup.loops (fun groups outer => collapse outer <$> callback groups outer) ?_
    (maxDepth ClusterGroup.loops (clusters.map ClusterGroup.ofCluster) + 1 - 1)
    (clusters.map ClusterGroup.ofCluster) 1 []
  · simp only [hsize, concat_ofCluster] at hqueue
    exact hqueue
  · intro groups outer
    simp only [hsize]
    refine .map ?_
    simpa only [concat_collapse] using hcb groups outer

end LoopNest
