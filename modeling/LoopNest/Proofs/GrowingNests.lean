import LoopNest.Proofs.BlockWalk

namespace LoopNest
namespace Queue

section
variable {ε σ φ : Type}

def prepend (before : List ε) (out : Except φ (List ε × σ)) : Except φ (List ε × σ) :=
  (fun r => (before ++ r.1, r.2)) <$> out

variable (loops : ε → List IterationInterval)
  (callback : List ε → List IterationInterval → StateT σ (Except φ) (List ε))

/-- First apply, then divide, as deep as it goes: what becomes of the runs of a level from a state
on, and how many levels are open at once, this one included. A run that ends above the level is left
alone. Any other goes to the callback and, divided anew, to the next level; the first failure puts
an end to all levels. -/
inductive Descent : Nat → List (List IterationInterval × List ε) → σ → Nat →
    Except φ (List ε × σ) → Prop
  | done : Descent level [] s 1 (.ok ([], s))
  | short (hshort : key.length < level) (hrest : Descent level runs s depth out) :
    Descent level ((key, run) :: runs) s depth (prepend run out)
  | failed (hlong : level ≤ key.length) (hcall : (callback run key).run s = .error f) :
    Descent level ((key, run) :: runs) s 1 (.error f)
  | stopped (hlong : level ≤ key.length) (hcall : (callback run key).run s = .ok (ys, t))
    (hbelow : Descent (level + 1) (groupRuns loops (level + 1) ys) t n (.error f)) :
    Descent level ((key, run) :: runs) s (n + 1) (.error f)
  | deeper (hlong : level ≤ key.length) (hcall : (callback run key).run s = .ok (ys, t))
    (hbelow : Descent (level + 1) (groupRuns loops (level + 1) ys) t n (.ok (zs, u)))
    (hrest : Descent level runs u depth out) :
    Descent level ((key, run) :: runs) s (max (n + 1) depth) (prepend zs out)

def Ends (level : Nat) (elements : List ε) (s : σ) (depth : Nat)
    (out : Except φ (List ε × σ)) : Prop :=
  Descent loops callback level (groupRuns loops level elements) s depth out

variable {loops callback} {level depth depth' : Nat} {s : σ} {out out' : Except φ (List ε × σ)}
  {runs : List (List IterationInterval × List ε)}

/-- A queue ends in one way at most. -/
theorem Descent.unique (h : Descent loops callback level runs s depth out)
    (h' : Descent loops callback level runs s depth' out') : depth' = depth ∧ out' = out := by
  induction h generalizing depth' out' with
  | done =>
    cases h'
    exact ⟨rfl, rfl⟩
  | short hshort _ ih =>
    cases h' with
    | short _ hrest =>
      obtain ⟨rfl, rfl⟩ := ih hrest
      exact ⟨rfl, rfl⟩
    | failed hlong | stopped hlong | deeper hlong => exact absurd hshort (Nat.not_lt.mpr hlong)
  | failed hlong hcall =>
    cases h' with
    | short hshort => exact absurd hshort (Nat.not_lt.mpr hlong)
    | failed _ hcall' =>
      cases hcall.symm.trans hcall'
      exact ⟨rfl, rfl⟩
    | stopped _ hcall' | deeper _ hcall' => cases hcall.symm.trans hcall'
  | stopped hlong hcall _ ih =>
    cases h' with
    | short hshort => exact absurd hshort (Nat.not_lt.mpr hlong)
    | failed _ hcall' => cases hcall.symm.trans hcall'
    | stopped _ hcall' hbelow =>
      cases hcall.symm.trans hcall'
      obtain ⟨rfl, hout⟩ := ih hbelow
      exact ⟨rfl, hout⟩
    | deeper _ hcall' hbelow =>
      cases hcall.symm.trans hcall'
      cases (ih hbelow).2
  | deeper hlong hcall _ _ ihbelow ihrest =>
    cases h' with
    | short hshort => exact absurd hshort (Nat.not_lt.mpr hlong)
    | failed _ hcall' => cases hcall.symm.trans hcall'
    | stopped _ hcall' hbelow =>
      cases hcall.symm.trans hcall'
      cases (ihbelow hbelow).2
    | deeper _ hcall' hbelow hrest =>
      cases hcall.symm.trans hcall'
      obtain ⟨rfl, hout⟩ := ihbelow hbelow
      cases hout
      obtain ⟨rfl, rfl⟩ := ihrest hrest
      exact ⟨rfl, rfl⟩

theorem Descent.pos (h : Descent loops callback level runs s depth out) : 0 < depth := by
  induction h with
  | done | failed => exact Nat.one_pos
  | short _ _ ih => exact ih
  | stopped => exact Nat.succ_pos _
  | deeper _ _ _ _ _ ih => exact lt_max_of_lt_right ih

theorem prepend_ok {before ys : List ε} {t : σ} (h : prepend before out = .ok (ys, t)) :
    ∃ zs, out = .ok (zs, t) ∧ ys = before ++ zs := by
  cases out with
  | error f => cases h
  | ok r =>
    cases h
    exact ⟨r.1, rfl, rfl⟩

/-- A queue goes down to the innermost loop of everything that it returns. -/
theorem Descent.length_lt (h : Descent loops callback level runs s depth out)
    (hkey : ∀ r ∈ runs, ∀ e ∈ r.2, (loops e).take level = r.1) {ys : List ε} {t : σ}
    (hout : out = .ok (ys, t)) : ∀ e ∈ ys, (loops e).length + 1 < level + depth := by
  induction h generalizing ys t with
  | done =>
    cases hout
    exact List.forall_mem_nil _
  | failed | stopped => cases hout
  | short hshort hrest ih =>
    obtain ⟨hrun, hkey⟩ := List.forall_mem_cons.mp hkey
    obtain ⟨zs, hzs, rfl⟩ := prepend_ok hout
    refine List.forall_mem_append.mpr ⟨fun e he => ?_, ih hkey hzs⟩
    have hlen := congrArg List.length (hrun e he)
    rw [List.length_take] at hlen
    have hpos := hrest.pos
    dsimp only at hlen
    omega
  | deeper _ _ _ _ ihbelow ihrest =>
    obtain ⟨-, hkey⟩ := List.forall_mem_cons.mp hkey
    obtain ⟨zs, hzs, rfl⟩ := prepend_ok hout
    have hbelow := ihbelow (fun r hr => (run_of_mem_runsBy hr).2) rfl
    have hrest := ihrest hkey hzs
    refine List.forall_mem_append.mpr ⟨fun e he => ?_, fun e he => ?_⟩
    · have hlt := hbelow e he
      omega
    · have hlt := hrest e he
      omega

theorem Ends.length_lt {ys : List ε} {t : σ}
    (h : Ends loops callback level xs s depth (.ok (ys, t))) :
    ∀ e ∈ ys, (loops e).length + 1 < level + depth :=
  Descent.length_lt h (fun _ hr => (run_of_mem_runsBy hr).2) rfl

/-- The runs of a level are gone through one after the other. -/
theorem run_flatten_mapM_cons {ρ : Type} {f : ρ → StateT σ (Except φ) (List ε)} {r : ρ}
    {rs : List ρ} : (List.flatten <$> (r :: rs).mapM f).run s =
      (f r).run s >>= fun p => prepend p.1 ((List.flatten <$> rs.mapM f).run p.2) := by
  simp [List.mapM_cons, prepend]

/-- Where the levels below end as they do within the bound, so does the level. -/
theorem exists_descent {levels : Nat}
    (hbelow : ∀ r ∈ runs, level ≤ r.1.length → ∀ s ys t, (callback r.2 r.1).run s = .ok (ys, t) →
      ∃ depth ≤ levels, Ends loops callback (level + 1) ys t depth
        ((applyFirst loops callback levels ys (level + 1)).run t)) (s : σ) :
    ∃ depth ≤ levels + 1, Descent loops callback level runs s depth
      ((List.flatten <$> runs.mapM fun r => if r.1.length < level then pure r.2
        else callback r.2 r.1 >>= fun ys => applyFirst loops callback levels ys (level + 1)).run
          s) := by
  induction runs generalizing s with
  | nil => exact ⟨1, Nat.le_add_left 1 levels, .done⟩
  | cons r runs ih =>
    obtain ⟨key, run⟩ := r
    obtain ⟨hfirst, hbelow⟩ := List.forall_mem_cons.mp hbelow
    rw [run_flatten_mapM_cons]
    by_cases hshort : key.length < level
    · obtain ⟨depth, hle, hrest⟩ := ih hbelow s
      rw [if_pos hshort]
      exact ⟨depth, hle, .short hshort hrest⟩
    · have hlong := Nat.not_lt.mp hshort
      rw [if_neg hshort]
      cases hcall : (callback run key).run s with
      | error f =>
        rw [StateT.run_bind, hcall]
        exact ⟨1, Nat.le_add_left 1 levels, .failed hlong hcall⟩
      | ok r =>
        obtain ⟨ys, t⟩ := r
        obtain ⟨n, hle, hends⟩ := hfirst hlong s ys t hcall
        have hstep : (callback run key >>= fun ys => applyFirst loops callback levels ys
            (level + 1)).run s = (applyFirst loops callback levels ys (level + 1)).run t := by
          rw [StateT.run_bind, hcall]
          rfl
        rw [hstep]
        cases hout : (applyFirst loops callback levels ys (level + 1)).run t with
        | error f =>
          rw [hout] at hends
          exact ⟨n + 1, Nat.succ_le_succ hle, .stopped hlong hcall hends⟩
        | ok p =>
          obtain ⟨zs, u⟩ := p
          rw [hout] at hends
          obtain ⟨depth, hle', hrest⟩ := ih hbelow u
          exact ⟨max (n + 1) depth, max_le (Nat.succ_le_succ hle) hle',
            .deeper hlong hcall hends hrest⟩

/-- A queue whose callback keeps all nests within a depth comes to an end, and with a bound on the
levels that leaves room for this depth it does the same. -/
theorem exists_ends {Q : ε → Prop} {deepest levels : Nat}
    (hdeepest : ∀ e, Q e → (loops e).length ≤ deepest)
    (hcb : ∀ xs outer ys, (∀ e ∈ xs, Q e) → returns (callback xs outer) ys → ∀ e ∈ ys, Q e)
    {xs : List ε} (hxs : ∀ e ∈ xs, Q e) (hlevels : deepest < level + levels) (s : σ) :
    ∃ depth ≤ levels + 1, Ends loops callback level xs s depth
      ((applyFirst loops callback (levels + 1) xs level).run s) := by
  induction levels generalizing xs level s with
  | zero =>
    rw [applyFirst, bind_pure_comp]
    refine exists_descent (fun r hr hlong => ?_) s
    -- No nest is deep enough for the callback.
    obtain ⟨hne, hkey⟩ := run_of_mem_runsBy hr
    obtain ⟨e, he⟩ := List.exists_mem_of_ne_nil _ hne
    have hle := hdeepest e (hxs e (mem_of_mem_runsBy hr e he))
    rw [← hkey e he, List.length_take] at hlong
    omega
  | succ levels ih =>
    rw [applyFirst, bind_pure_comp]
    refine exists_descent (fun r hr _ s ys t hcall => ?_) s
    have hrun : ∀ e ∈ r.2, Q e := fun e he => hxs e (mem_of_mem_runsBy hr e he)
    exact ih (hcb r.2 r.1 ys hrun ⟨s, t, hcall⟩) (by omega) t

end

end Queue

namespace Blocking

def reach (b : Blocking) (c : Cluster) : Nat := c.dimensions.length + b.levels * tilableCount c

section
variable {b : Blocking} {c c' : Cluster} {d : Dimension}

theorem length_le_reach (b : Blocking) (c : Cluster) : c.loops.length ≤ b.reach c := by
  rw [Cluster.length_loops]
  exact Nat.le_add_right _ _

theorem mem_dimensions_of_block (h : returns (b.block c d) c') : d ∈ c.dimensions := by
  obtain ⟨n, blocks, last, i, ispace, -, -, hi, -⟩ := block_cases h
  rw [← IntervalGroup.dim_of_find? hi]
  exact Cluster.mem_dimensions_of_mem (List.mem_of_find?_eq_some hi)

/-- The loops that blocking a dimension adds are those that its tag stood for. -/
theorem block_reach (hlevels : b.levels ≠ 0) (ht : c.properties.isTilable d)
    (h : returns (b.block c d) c') : b.reach c' = b.reach c := by
  obtain ⟨front, after, hsplit, hfront⟩ := List.eq_append_cons_of_mem (mem_dimensions_of_block h)
  obtain ⟨first, inner, ho⟩ := block_opened h hlevels hsplit hfront
  have htags : c.properties.tilable.Perm (d :: c'.properties.tilable) :=
    ho.tags ▸ tilable_inheritTags ht
  have hcount := htags.length_eq
  rw [List.length_cons, length_tilable, length_tilable] at hcount
  rw [reach, reach, ho.perm.length_eq, hsplit, hcount, Nat.mul_succ]
  simp only [List.length_append, List.length_cons, ho.length]
  omega

/-- A visit lengthens nests, but not what they can get to. -/
theorem callback_reach {clusters out : List Cluster} {outer : List IterationInterval}
    (hlevels : b.levels ≠ 0) (h : returns (b.callback clusters outer) out) :
    List.Forall₂ (fun c c' => b.reach c' = b.reach c) clusters out := by
  rcases callback_cases h with ⟨-, rfl⟩ | ⟨l, -, hall⟩
  · exact List.forall₂_same.mpr fun _ _ => rfl
  · refine hall.imp fun c c' hc => ?_
    split at hc
    · rename_i hw
      exact block_reach hlevels (isTilable_of_wants hw) hc
    · rw [hc]

/-- Blocking comes to an end, be it with an error, whatever is tilable, blocks that are yet to be
made included: its queue, left to itself, ends as `apply` does and in no other way. It goes inside
every loop of the result, and no deeper than inside as many loops as a cluster can get to: those it
has and, for each of its tilable dimensions, the levels of blocks. -/
theorem apply_ends (hlevels : b.levels ≠ 0) (clusters : List Cluster) (s : State) :
    ∃ depth,
      Queue.Ends Cluster.loops b.callback 1 clusters s depth ((b.apply clusters).run s) ∧
      depth ≤ 1 + (clusters.map fun c =>
        c.dimensions.length + b.levels * tilableCount c).foldl max 0 ∧
      (∀ depth' out, Queue.Ends Cluster.loops b.callback 1 clusters s depth' out →
        depth' = depth ∧ out = (b.apply clusters).run s) ∧
      ∀ out t, (b.apply clusters).run s = .ok (out, t) →
        ∀ c ∈ out, c.dimensions.length < depth := by
  let deepest := (clusters.map b.reach).foldl max 0
  have hreach : ∀ c ∈ clusters, b.reach c ≤ deepest := fun c hc =>
    Queue.le_foldl_max (List.mem_map_of_mem hc)
  have hcb : ∀ xs outer ys, (∀ c ∈ xs, b.reach c ≤ deepest) →
      returns (b.callback xs outer) ys → ∀ c ∈ ys, b.reach c ≤ deepest := by
    intro xs outer ys hxs h c' hc'
    obtain ⟨c, hc, heq⟩ := exists_of_forall₂ (callback_reach hlevels h).flip hc'
    exact heq ▸ hxs c hc
  have happly : b.apply clusters =
      Queue.applyFirst Cluster.loops b.callback (deepest + 1) clusters 1 := by
    rw [apply, if_neg hlevels, Nat.add_comm]
    rfl
  obtain ⟨depth, hle, hends⟩ := Queue.exists_ends (fun c hc => (b.length_le_reach c).trans hc) hcb
    hreach (Nat.lt_add_of_pos_left Nat.one_pos) s
  rw [happly]
  refine ⟨depth, hends, Nat.add_comm deepest 1 ▸ hle, fun _ _ => Queue.Descent.unique hends,
    fun out t hout c hc => ?_⟩
  rw [hout] at hends
  have hlt := hends.length_lt c hc
  rw [Cluster.length_loops] at hlt
  omega

end

def blocksOverX : List Dimension :=
  ((⟨2, true⟩ : Blocking).blocksOver (.basic "x") 0).toOption.getD []

/-- A loop over `x`. It is tilable, and so is the inner one of the blocks that are made of it. -/
def growing : Cluster :=
  .along [.basic "x"] [] ((.basic "x", [.tilable]) :: (blocksOverX.drop 1).map (·, [.tilable]))

/-- The inner block is blocked in turn when the queue comes to it, which takes all the depth that
there may be. -/
theorem apply_ends_growing :
    (⟨2, true⟩ : Blocking).levels ≠ 0 ∧
    growing.dimensions.length + 2 * tilableCount growing = 5 ∧
    ∃ c t, ((⟨2, true⟩ : Blocking).apply [growing]).run .empty = .ok ([c], t) ∧
      c.dimensions.map Dimension.name =
        ["x0_blk0", "x0_blk10_blk0", "x0_blk10_blk1", "x0_blk1", "x"] ∧
      Queue.Ends Cluster.loops (callback ⟨2, true⟩) 1 [growing] .empty 6 (.ok ([c], t)) := by
  obtain ⟨c, t, hrun, hnames⟩ := exists_of_readings
    (f := fun c => c.dimensions.map Dimension.name)
    (a := ["x0_blk0", "x0_blk10_blk0", "x0_blk10_blk1", "x0_blk1", "x"])
    (r := ((⟨2, true⟩ : Blocking).apply [growing]).run .empty) (by decide +kernel)
  obtain ⟨depth, hends, hle, -, hdeep⟩ := apply_ends (b := ⟨2, true⟩) (by decide) [growing] .empty
  have hle : depth ≤ 6 := hle.trans (by decide +kernel)
  have hlt := hdeep [c] t hrun c List.mem_cons_self
  have hlength := congrArg List.length hnames
  rw [List.length_map] at hlength
  simp only [List.length_cons, List.length_nil] at hlength
  obtain rfl : depth = 6 := by omega
  exact ⟨by decide, by decide +kernel, c, t, hrun, hnames, hrun ▸ hends⟩

end Blocking
end LoopNest
