import LoopNest.Proofs.CreatedBlocks
import Mathlib.Data.List.Lattice

namespace LoopNest

theorem repr_toList (n : Nat) : n.repr.toList = Nat.toDigits 10 n := by
  simp [Nat.repr]

theorem repr_inj {m n : Nat} (h : m.repr = n.repr) : m = n := by
  have hdigits := congrArg (fun s : String => Nat.ofDigitChars 10 s.toList 0) h
  simpa [repr_toList, Nat.ofDigitChars_toDigits] using hdigits

namespace Blocking

theorem blockName_toList (d : Dimension) (n level : Nat) : (blockName d n level).toList =
    d.name.toList ++ (Nat.toDigits 10 n ++ ("_blk".toList ++ Nat.toDigits 10 level)) := by
  simp [blockName, ToString.toString]

/-- A name tells its level apart, since no digit is a letter. -/
theorem blockName_eq_iff {d e : Dimension} {n m level level' : Nat} :
    blockName d n level = blockName e m level' ↔
      d.name ++ n.repr = e.name ++ m.repr ∧ level = level' := by
  refine ⟨fun h => ?_, fun ⟨hname, hlevel⟩ => ?_⟩
  · have hback : ∀ (d : Dimension) (n level : Nat), (blockName d n level).toList.reverse =
        (Nat.toDigits 10 level).reverse ++
          'k' :: ("lb_".toList ++ (d.name ++ n.repr).toList.reverse) := by
      intro d n level
      simp [blockName_toList]
    have htail : ∀ (d : Dimension) (n level : Nat),
        (blockName d n level).toList.reverse.takeWhile Char.isDigit =
          (Nat.toDigits 10 level).reverse := by
      intro d n level
      rw [hback, List.takeWhile_append_of_pos, List.takeWhile_cons_of_neg (by decide),
        List.append_nil]
      intro c hc
      exact Nat.isDigit_of_mem_toDigits (by decide) (by decide) (List.mem_reverse.mp hc)
    have hdigits := htail d n level
    rw [h, htail, List.reverse_inj, ← repr_toList, ← repr_toList, String.toList_inj] at hdigits
    obtain rfl := repr_inj hdigits
    have hwhole := hback d n level'
    rw [h, hback, List.append_cancel_left_eq, List.cons_inj_right, List.append_cancel_left_eq,
      List.reverse_inj, String.toList_inj] at hwhole
    exact ⟨hwhole.symm, rfl⟩
  · have hjoin : ∀ (d : Dimension) (n : Nat), blockName d n level =
        d.name ++ n.repr ++ "_blk" ++ level.repr := fun _ _ => rfl
    rw [← hlevel, hjoin, hjoin, hname]

theorem blockName_inj {d : Dimension} {n level level' : Nat}
    (h : blockName d n level = blockName d n level') : level = level' := (blockName_eq_iff.mp h).2

theorem blockName_ne (d : Dimension) (n level : Nat) : blockName d n level ≠ d.name := by
  intro h
  have hlen := congrArg (fun s : String => s.toList.length) h
  simp [blockName_toList] at hlen

/-- A size goes by another name than a block, which ends in a digit. -/
theorem sizeName_blockName_ne (d : Dimension) (n level level' : Nat) :
    Dimension.sizeName (blockName d n level) ≠ blockName d n level' := by
  intro h
  have h := congrArg String.toList h
  simp only [Dimension.sizeName, String.toList_append, blockName_toList, List.append_assoc,
    List.append_cancel_left_eq] at h
  have hdigit : 'e' ∈ Nat.toDigits 10 level' := by
    rw [← h]
    simp
  have := Nat.isDigit_of_mem_toDigits (by decide) (by decide) hdigit
  cases this

theorem sizeName_ne (d : Dimension) (n level : Nat) :
    Dimension.sizeName (blockName d n level) ≠ d.name := by
  intro h
  have hlen := congrArg (fun s : String => s.toList.length) h
  simp [Dimension.sizeName, blockName_toList] at hlen

/-- The times that dimensions, the latest first, were blocked: each with a count of the times
before. -/
def occurrences : List Dimension → List (Dimension × Nat)
  | [] => []
  | d :: earlier => occurrences earlier ++ [(d, earlier.count d)]

theorem mem_occurrences {blocked : List Dimension} {d : Dimension} {n : Nat} :
    (d, n) ∈ occurrences blocked ↔ n < blocked.count d := by
  induction blocked with
  | nil => simp [occurrences]
  | cons e earlier ih =>
    rw [occurrences, List.mem_append, ih, List.mem_singleton, Prod.mk.injEq, List.count_cons]
    by_cases he : e = d
    · subst he
      simp
      omega
    · have hne : d ≠ e := Ne.symm he
      simp [he, hne]

theorem occurrences_nodup (blocked : List Dimension) : (occurrences blocked).Nodup := by
  induction blocked with
  | nil => exact List.nodup_nil
  | cons d earlier ih =>
    refine List.nodup_append.mpr ⟨ih, List.nodup_singleton _, fun o ho o' ho' he => ?_⟩
    rw [he, List.mem_singleton.mp ho', mem_occurrences] at ho
    exact Nat.lt_irrefl _ ho

def blockNames (levels : Nat) (blocked : List Dimension) : List String :=
  (occurrences blocked).flatMap fun o => (List.range levels).map (blockName o.1 o.2)

/-- The names of two blocked dimensions, continued by counters, read the same. -/
def State.Clash (s : State) : Prop :=
  ∃ d e n m, d ≠ e ∧ n < s.blocked.count d ∧ m < s.blocked.count e ∧
    d.name ++ n.repr = e.name ++ m.repr

theorem blockNames_nodup_iff {levels : Nat} (hlevels : levels ≠ 0) {s : State} :
    (blockNames levels s.blocked).Nodup ↔ ¬s.Clash := by
  rw [blockNames, List.nodup_flatMap]
  refine ⟨fun ⟨_, hpair⟩ => ?_, fun hfree => ⟨fun o _ => ?_, ?_⟩⟩
  · rintro ⟨d, e, n, m, hne, hn, hm, hname⟩
    have : Std.Symm (Function.onFun List.Disjoint fun o : Dimension × Nat =>
        (List.range levels).map (blockName o.1 o.2)) := ⟨fun _ _ h => List.Disjoint.symm h⟩
    have hapart := hpair.forall (mem_occurrences.mpr hn) (mem_occurrences.mpr hm)
      fun he => hne (congrArg Prod.fst he)
    have hzero : 0 ∈ List.range levels := List.mem_range.mpr (Nat.pos_of_ne_zero hlevels)
    refine hapart (List.mem_map_of_mem hzero) ?_
    rw [blockName_eq_iff.mpr ⟨hname, rfl⟩]
    exact List.mem_map_of_mem hzero
  · exact List.nodup_range.map fun _ _ => blockName_inj
  · refine (occurrences_nodup _).pairwise_of_forall_ne fun o ho o' ho' hne => ?_
    refine List.disjoint_left.mpr fun name hin hin' => ?_
    obtain ⟨level, -, rfl⟩ := List.mem_map.mp hin
    obtain ⟨level', -, he⟩ := List.mem_map.mp hin'
    obtain ⟨hname, -⟩ := blockName_eq_iff.mp he.symm
    refine hfree ⟨o.1, o'.1, o.2, o'.2, fun hd => hne (Prod.ext hd ?_),
      mem_occurrences.mp ho, mem_occurrences.mp ho', hname⟩
    have hcounts := congrArg String.toList (hd ▸ hname)
    rw [String.toList_append, String.toList_append, List.append_cancel_left_eq,
      String.toList_inj] at hcounts
    exact repr_inj hcounts

/-- The names of the blocks created tell which dimensions were blocked, and these are all tilable in
some cluster that was to be blocked. -/
structure Accounted (b : Blocking) (clusters : List Cluster) (s : State) : Prop where
  names : s.created.map Dimension.name = blockNames b.levels s.blocked
  sources : ∀ d ∈ s.blocked, ∃ c ∈ clusters, c.properties.isTilable d

def TilableIn (clusters : List Cluster) (c : Cluster) : Prop :=
  ∀ d, c.properties.isTilable d → ∃ c₀ ∈ clusters, c₀.properties.isTilable d

section
variable {b : Blocking} {clusters : List Cluster} {c : Cluster} {s : State}

theorem accounted_progress :
    Progress fun s t : State => b.Accounted clusters s → b.Accounted clusters t where
  refl _ h := h
  trans h h' hs := h' (h hs)

theorem block_accounted {d : Dimension} (hlevels : b.levels ≠ 0) (hw : b.wants c d)
    (hc : TilableIn clusters c) :
    Yields (fun s t => b.Accounted clusters s → b.Accounted clusters t)
      (fun _ => TilableIn clusters) (b.block c d) s := by
  intro c' s' h
  obtain ⟨blocks, last, i, ispace, hblocks, hlast, -, -, rfl, rfl⟩ := block_run_cases h
  obtain ⟨first, rest, rfl, hnest⟩ := hierarchy hblocks hlast
  refine ⟨fun hs => ⟨?_, ?_⟩, fun e he => hc e (isTilable_inheritTags.mp he).1⟩
  · rw [List.map_append, hs.names, hnest.names,
      Nat.sub_add_cancel (Nat.pos_of_ne_zero hlevels)]
    simp [blockNames, occurrences]
  · exact List.forall_mem_cons.mpr ⟨hc d (isTilable_of_wants hw), hs.sources⟩

theorem callback_accounted {run : List Cluster} {outer : List IterationInterval}
    (hlevels : b.levels ≠ 0) (hrun : ∀ c ∈ run, TilableIn clusters c) :
    Yields (fun s t => b.Accounted clusters s → b.Accounted clusters t)
      (fun _ out => ∀ c ∈ out, TilableIn clusters c) (b.callback run outer) s := by
  unfold callback
  split
  · exact .pure accounted_progress hrun
  · refine .mapM (P := fun _ => TilableIn clusters) (R := fun _ => TilableIn clusters)
      accounted_progress (fun _ h => h) (fun _ h => h) (fun t c hc => ?_) hrun
    split
    · rename_i hw
      exact block_accounted hlevels hw hc
    · exact .pure accounted_progress hc

theorem apply_accounted {out : List Cluster} (h : (b.apply clusters).run .empty = .ok (out, s)) :
    b.Accounted clusters s := by
  have hstart : b.Accounted clusters .empty := ⟨rfl, fun d hd => absurd hd List.not_mem_nil⟩
  unfold apply at h
  split at h
  · obtain ⟨-, rfl⟩ := run_pure h
    exact hstart
  · rename_i hlevels
    exact (Queue.yields_applyFirst (Q := fun _ => TilableIn clusters) accounted_progress
      (fun _ h => h) (fun _ _ _ => callback_accounted hlevels)
      (fun c hc d hd => ⟨c, hc, hd⟩) out s h).1 hstart

theorem apply_sized {out : List Cluster} (h : (b.apply clusters).run .empty = .ok (out, s)) :
    ∀ d ∈ s.created, d.Sized := by
  have hnoted : ∀ c ∈ clusters, Noted (fun _ => True) .empty c := fun _ _ _ _ _ => .inl trivial
  obtain ⟨⟨new, hnew, hsized⟩, -⟩ := apply_noted hnoted out s h
  rw [hnew]
  exact hsized

end

end Blocking

/-- The size parameters of blocks with sizes of their own go by the names of the blocks. -/
theorem Pipeline.sizeParameters_names {blocks : List Dimension} (h : ∀ d ∈ blocks, d.Sized) :
    (sizeParameters blocks).map Prod.fst =
      (blocks.map Dimension.name).map Dimension.sizeName := by
  rw [sizeParameters, List.map_filterMap, List.map_map]
  refine (List.filterMap_congr fun d hd => ?_).trans (congrFun List.filterMap_eq_map blocks)
  rw [(h d hd).sizeParameter?]
  rfl

theorem Dimension.sizeName_injective : Function.Injective Dimension.sizeName :=
  fun _ _ h => String.toList_inj.mp (by
    simpa [Dimension.sizeName] using congrArg String.toList h)

/-- The blocks that a run of blocking records have distinct names, and their sizes distinct
parameters, exactly if no two different dimensions that it blocked have names that read the same
when they are continued by counters. All that it blocks is tilable in some cluster. -/
theorem created_names_nodup_iff {b : Blocking} {clusters out : List Cluster} {s : Blocking.State}
    (h : (b.apply clusters).run .empty = .ok (out, s)) :
    (∀ d ∈ s.blocked, ∃ c ∈ clusters, c.properties.isTilable d) ∧
      ((s.created.map Dimension.name).Nodup ↔ ¬s.Clash) ∧
      (((Pipeline.sizeParameters s.created).map Prod.fst).Nodup ↔ ¬s.Clash) := by
  have haccounted := Blocking.apply_accounted h
  have hnames : (s.created.map Dimension.name).Nodup ↔ ¬s.Clash := by
    rw [haccounted.names]
    by_cases hlevels : b.levels = 0
    · unfold Blocking.apply at h
      rw [if_pos hlevels] at h
      obtain ⟨-, rfl⟩ := run_pure h
      refine iff_of_true List.nodup_nil ?_
      rintro ⟨d, e, n, m, -, hn, -⟩
      exact Nat.not_lt_zero n hn
    · exact Blocking.blockNames_nodup_iff hlevels
  refine ⟨haccounted.sources, hnames, ?_⟩
  rw [Pipeline.sizeParameters_names (Blocking.apply_sized h),
    List.nodup_map_iff Dimension.sizeName_injective, hnames]

def tilableLoops (dims : List Dimension) : List Cluster :=
  dims.map fun d => .along [d] [] [(d, [.tilable])]

/-- A dimension that is blocked once more gets blocks with another number. -/
theorem created_names_nodup_iff_again :
    ∃ out s, ((⟨2, true⟩ : Blocking).apply
        (tilableLoops [.basic "x", .basic "y", .basic "x"])).run .empty = .ok (out, s) ∧
      s.created.map Dimension.name =
        ["x0_blk0", "x0_blk1", "y0_blk0", "y0_blk1", "x1_blk0", "x1_blk1"] ∧
      ¬s.Clash := by
  obtain ⟨⟨out, s⟩, hrun, hnames⟩ : ∃ r, ((⟨2, true⟩ : Blocking).apply
      (tilableLoops [.basic "x", .basic "y", .basic "x"])).run .empty = .ok r ∧
        r.2.created.map Dimension.name =
          ["x0_blk0", "x0_blk1", "y0_blk0", "y0_blk1", "x1_blk0", "x1_blk1"] :=
    exists_of_toOption (by decide +kernel)
  refine ⟨out, s, hrun, hnames, (created_names_nodup_iff hrun).2.1.mp ?_⟩
  rw [hnames]
  decide

/-- A slab of `y` that goes by the name `x` has a counter of its own, so its first block goes by the
name of the first block over `x`, and both by one size. -/
theorem created_names_repeated :
    ∃ out s, ((⟨1, true⟩ : Blocking).apply
        (tilableLoops [.basic "x", .sub "x" (.basic "y") (.left (.int 1))])).run .empty =
          .ok (out, s) ∧
      ¬(s.created.map Dimension.name).Nodup ∧
      (Pipeline.sizeParameters s.created).map Prod.fst = ["x0_blk0_size", "x0_blk0_size"] := by
  obtain ⟨⟨out, s⟩, hrun, hread⟩ : ∃ r, ((⟨1, true⟩ : Blocking).apply
      (tilableLoops [.basic "x", .sub "x" (.basic "y") (.left (.int 1))])).run .empty = .ok r ∧
        (r.2.created.map Dimension.name, (Pipeline.sizeParameters r.2.created).map Prod.fst) =
          (["x0_blk0", "x0_blk0"], ["x0_blk0_size", "x0_blk0_size"]) :=
    exists_of_toOption (by decide +kernel)
  obtain ⟨hnames, hsizes⟩ := Prod.mk.inj hread
  refine ⟨out, s, hrun, ?_, hsizes⟩
  rw [hnames]
  decide

end LoopNest
