import LoopNest.Proofs.CreatedBlocks

namespace LoopNest

namespace Interval

def pointCount (v : Valuation) : Interval → Nat
  | closed d lower upper =>
    (d.endpoint v .upper + upper.denote v + 1 - (d.endpoint v .lower + lower.denote v)).toNat
  | null _ => 0

/-- Tiles of the given size, laid from the first point on, end before the last point or at it. -/
def TiledBy (v : Valuation) (size : Int) : Interval → Prop
  | closed d lower upper =>
    ∀ p, d.endpoint v .lower + lower.denote v ≤ p → p ≤ d.endpoint v .upper + upper.denote v →
      size ∣ p - (d.endpoint v .lower + lower.denote v) →
        p + size - 1 ≤ d.endpoint v .upper + upper.denote v
  | null _ => True

theorem tiledBy_iff {i : Interval} {v : Valuation} {size : Int} (hsize : 0 < size) :
    i.TiledBy v size ↔ size ∣ i.pointCount v := by
  cases i with
  | null d => simp [TiledBy, pointCount]
  | closed d lower upper =>
    unfold TiledBy pointCount
    dsimp only
    generalize d.endpoint v .lower + lower.denote v = first
    generalize d.endpoint v .upper + upper.denote v = last
    by_cases hempty : last < first
    · have hzero : (last + 1 - first).toNat = 0 := by omega
      simp only [hzero, Int.natCast_zero, Int.dvd_zero, iff_true]
      intro p hp hp'
      omega
    · have hcount : ((last + 1 - first).toNat : Int) = last + 1 - first := by omega
      rw [hcount]
      constructor
      · intro h
        -- the last tile that starts in the range
        have hmod := Int.emod_add_mul_ediv (last - first) size
        have hlow := Int.emod_nonneg (last - first) (Int.ne_of_gt hsize)
        have hhigh := Int.emod_lt_of_pos (last - first) hsize
        have hquot : 0 ≤ size * ((last - first) / size) :=
          Int.mul_nonneg hsize.le (Int.ediv_nonneg (by omega) hsize.le)
        have hend := h (first + size * ((last - first) / size)) (by omega) (by omega)
          (by simp)
        refine ⟨(last - first) / size + 1, ?_⟩
        rw [Int.mul_add]
        omega
      · rintro ⟨k, hk⟩ p hp hp' ⟨j, hj⟩
        have hlt : size * j < size * k := by omega
        have hjk : j + 1 ≤ k := (Int.mul_lt_mul_left hsize).mp hlt
        have hle : size * (j + 1) ≤ size * k := Int.mul_le_mul_of_nonneg_left hjk hsize.le
        rw [Int.mul_add] at hle
        omega

end Interval

namespace Pipeline

theorem runtimeArgs_find? {shape : List Int64} {blocks : List Dimension} {d : Dimension}
    {s : String} {i : Nat} {size : Int64} (hd : d ∈ blocks) (hs : d.sizeParameter? = some s)
    (hroot : (blocks.map Dimension.root).eraseDups[i]? = some d.root)
    (hsize : shape[i]? = some size)
    (hown : ∀ e ∈ blocks, e.sizeParameter? = some s → e.root = d.root) :
    (runtimeArgs shape blocks).find? s = some size := by
  obtain ⟨hi, hroot⟩ := List.getElem?_eq_some_iff.mp hroot
  have hidx : (blocks.map Dimension.root).eraseDups.idxOf d.root = i := by
    rw [← hroot]
    exact (nodup_eraseDups _).idxOf_getElem i hi
  refine SortedMap.find?_ofList ?_ fun w hw => ?_
  · refine List.mem_filterMap.mpr ⟨(s, i), List.mem_filterMap.mpr ⟨d, hd, ?_⟩, ?_⟩
    · simp [hs, hidx]
    · simp [hsize]
  · obtain ⟨⟨t, j⟩, hin, hw⟩ := List.mem_filterMap.mp hw
    obtain ⟨e, he, hparam⟩ := List.mem_filterMap.mp hin
    simp only [Option.map_eq_some_iff, Prod.mk.injEq] at hparam hw
    obtain ⟨t', ht', rfl, rfl⟩ := hparam
    obtain ⟨n, hn, rfl, rfl⟩ := hw
    rw [hown e he ht', hidx, hsize] at hn
    exact (Option.some.inj hn).symm

end Pipeline

namespace Config

/-- What validation makes sure of when blocks are to be exact. -/
theorem exact_of_validate {config : Config} {shape grid : List Int64}
    (h : config.validate = .ok ()) (hexact : config.exactBlocks = true)
    (hshape : config.blockShape = some shape) (hgrid : config.gridShape = some grid) :
    grid.length = shape.length ∧ (∀ b ∈ shape, 0 < b.toInt) ∧
      ∀ p ∈ shape.zip grid, p.1.toInt ∣ p.2.toInt := by
  have h : config.validateShape shape = .ok () := by
    unfold validate at h
    dsimp only at h
    split at h
    · cases h
    · split at h
      · cases h
      · rw [hshape] at h
        exact h
  unfold validateShape at h
  dsimp only at h
  split at h
  · cases h
  rename_i hpos
  simp only [hgrid, hexact, ↓reduceIte] at h
  split at h
  · cases h
  rename_i hlen
  split at h
  · cases h
  rename_i hdvd
  refine ⟨not_not.mp hlen, fun b hb => ?_, fun p hp => ?_⟩
  · have hlt : 0 < b := by simpa using List.find?_eq_none.mp hpos b hb
    exact Int64.lt_iff_toInt_lt.mp hlt
  · have hmod := List.find?_eq_none.mp hdvd p hp
    exact Int.dvd_of_tmod_eq_zero (by simpa using hmod)

end Config

namespace Pipeline

/-- What a run returns is what its passes made, with sizes for the blocks. -/
theorem run_cases {config : Config} {clusters : List Cluster} {out : Outcome} {shape : List Int64}
    (hshape : config.blockShape = some shape) (h : run config clusters = .ok out) :
    config.validate = .ok () ∧ ∃ done,
      config.mode.passes.foldlM (addPass config) ⟨clusters, [], false, [], .empty⟩ = .ok done ∧
        out = { done with runtimeArgs := runtimeArgs shape done.blockDimensions } := by
  obtain ⟨checked, hvalid, h⟩ := Returns.of_bind (returns_ok h)
  obtain ⟨done, hd, h⟩ := Returns.of_bind h
  rw [hshape] at h
  exact ⟨mapError_ok hvalid, done, hd, Returns.of_pure h⟩

end Pipeline

/-- A block over a basic dimension has the points of that dimension, widened by the offsets. -/
theorem Dimension.Sized.pointCount {d : Dimension} {r : String} (h : d.Sized)
    (hparent : d.parent? = some (.basic r)) (lower upper : LinExpr) (v : Valuation) :
    (Interval.closed d lower upper).pointCount v =
      (v (r ++ "_M") - v (r ++ "_m") + 1 + (upper.denote v - lower.denote v)).toNat := by
  obtain ⟨name, parent, first, last, rfl, hends⟩ := h
  obtain ⟨rfl, rfl⟩ := hends r (Option.some.inj hparent)
  simp only [Interval.pointCount, endpoint, LinExpr.denote_symbol]
  congr 1
  omega

theorem dvd_widened_iff {size extent widening : Int} (h : size ∣ extent) :
    size ∣ (extent + widening).toNat ↔ (extent + widening).toNat = 0 ∨ size ∣ widening := by
  by_cases hempty : extent + widening ≤ 0
  · simp [Int.toNat_of_nonpos hempty]
  · rw [Int.toNat_of_nonneg (by omega), Int.dvd_add_right h]
    exact ⟨.inr, fun h => h.resolve_left (by omega)⟩

/-- The size of a block along the root that is the `i`-th to be blocked is the `i`-th of the shape,
provided that no block of another root goes by the same parameter. -/
theorem Pipeline.denote_step {shape : List Int64} {done : Outcome} {d : Dimension} {i : Nat}
    {b : Int64} {v : Valuation} (hmem : d ∈ done.blockDimensions) (hsized : d.Sized)
    (hroot : (done.blockDimensions.map Dimension.root).eraseDups[i]? = some d.root)
    (hb : shape[i]? = some b)
    (hown : ∀ d ∈ done.blockDimensions, ∀ e ∈ done.blockDimensions,
      d.sizeParameter? = e.sizeParameter? → d.root = e.root)
    (hsizes : ∀ s n, (runtimeArgs shape done.blockDimensions).find? s = some n → v s = n.toInt) :
    d.step.denote v = b.toInt := by
  have hargs := runtimeArgs_find? hmem hsized.sizeParameter? hroot hb fun e he hes =>
    hown e he d hmem (hes.trans hsized.sizeParameter?.symm)
  rw [hsized.step, LinExpr.denote_symbol, hsizes _ _ hargs]

/-- Blocks are numbered behind the name, so that two roots may come to share a parameter. -/
example : ((⟨1, true⟩ : Blocking).blocksOver (.basic "x") 10).toOption.map
      (·.map Dimension.sizeParameter?) =
    ((⟨1, true⟩ : Blocking).blocksOver (.basic "x1") 0).toOption.map
      (·.map Dimension.sizeParameter?) := by decide +kernel

/-- With exact blocks, the tiles of an outermost block over a basic dimension are exact where the
size divides the number of points. Since it divides the extent of the grid, it does so where it
divides the difference of the offsets, in particular where they are equal. -/
theorem exactBlocks_tiled_iff {config : Config} {shape grid : List Int64} {clusters : List Cluster}
    {out : Outcome} {v : Valuation} (hexact : config.exactBlocks = true)
    (hshape : config.blockShape = some shape) (hgrid : config.gridShape = some grid)
    (hpass : "remainder" ∉ config.mode.passes) (hrun : Pipeline.run config clusters = .ok out)
    (hown : ∀ d ∈ out.blockDimensions, ∀ e ∈ out.blockDimensions,
      d.sizeParameter? = e.sizeParameter? → d.root = e.root)
    (hsizes : ∀ s n, out.runtimeArgs.find? s = some n → v s = n.toInt) :
    ∀ c ∈ out.clusters, ∀ (d : Dimension) (lower upper : LinExpr) (r : String) (i : Nat)
        (extent : Int64), .closed d lower upper ∈ c.intervals →
      d.isBlock → d.parent? = some (.basic r) →
      (d ∈ out.blockDimensions ∨ ∀ c ∈ clusters, d ∉ c.dimensions) →
      (out.blockDimensions.map Dimension.root).eraseDups[i]? = some (.basic r) →
      grid[i]? = some extent → v (r ++ "_M") - v (r ++ "_m") + 1 = extent.toInt →
      let loop := Interval.closed d lower upper
      let size := d.step.denote v
      (loop.TiledBy v size ↔ size ∣ loop.pointCount v) ∧
        (size ∣ loop.pointCount v ↔
          loop.pointCount v = 0 ∨ size ∣ upper.denote v - lower.denote v) := by
  intro c hc d lower upper r i extent hin hblock hparent hnew hroot hextent hpoints loop size
  obtain ⟨hvalid, done, hd, rfl⟩ := Pipeline.run_cases hshape hrun
  obtain ⟨hlen, hpos, hdvd⟩ := Config.exact_of_validate hvalid hexact hshape hgrid
  have hcreates := Pipeline.foldlM_creates hpass hd
  have hmem : d ∈ done.blockDimensions := by
    rcases hnew with hmem | hnew
    · exact hmem
    · refine (hcreates.loops c hc d (Cluster.mem_dimensions_of_mem hin)
        ⟨hblock, r, hparent⟩).resolve_left ?_
      rintro ⟨c', hc', hd⟩
      exact hnew c' hc' hd
  have hsized := hcreates.sized d hmem
  obtain ⟨hi, hextent⟩ := List.getElem?_eq_some_iff.mp hextent
  have hi' : i < shape.length := hlen ▸ hi
  have hpair : (shape[i], extent) ∈ shape.zip grid :=
    List.mem_iff_getElem.mpr ⟨i, by simp [hi, hi'], by simp [hextent]⟩
  have hsize : size = shape[i].toInt := Pipeline.denote_step hmem hsized
    (Dimension.root_of_parent? hparent ▸ hroot) (List.getElem?_eq_getElem hi') hown hsizes
  have hsize0 : 0 < size := hsize ▸ hpos _ (List.getElem_mem hi')
  have hextents : size ∣ extent.toInt := hsize ▸ hdvd _ hpair
  refine ⟨Interval.tiledBy_iff hsize0, ?_⟩
  rw [hsized.pointCount hparent, hpoints]
  exact dvd_widened_iff hextents

def Config.fours : Config :=
  { Config.forLocality with
    mode := .custom ["blocking"], blockShape := some [4], gridShape := some [8],
    exactBlocks := true }

def Cluster.widened (lower upper : Int64) : Cluster :=
  let loops : List Interval := [.closed (.basic "x") (.int lower) (.int upper)]
  let e : Equation := ⟨.around "x" "u" 0, .int 1, .ofIntervals (.ofIntervals loops), .empty⟩
  (Cluster.ofEquation e .empty).tagged (.basic "x") [.tilable]

def Dimension.fours : Dimension :=
  .block "x0_blk0" (.basic "x") (.symbol "x_m") (.symbol "x_M") (.symbol "x0_blk0_size")

def Valuation.fours : Valuation
  | "x_M" => 7
  | "x0_blk0_size" => 4
  | _ => 0

def Outcome.blocked (out : Outcome) :
    List (Option IterationInterval) × List Dimension × List (String × Int64) :=
  (out.clusters.map (·.loops.head?), out.blockDimensions, out.runtimeArgs.entries)

theorem blocked_cases (lower upper : Int64) (h :
    (Pipeline.run .fours [.widened lower upper]).toOption.map Outcome.blocked =
      some ([some ⟨.closed .fours (.int lower) (.int upper), .forward⟩], [.fours],
        [("x0_blk0_size", 4)])) :
    ∃ out c, Pipeline.run .fours [.widened lower upper] = .ok out ∧ out.clusters = [c] ∧
      ⟨.closed .fours (.int lower) (.int upper), .forward⟩ ∈ c.loops ∧
      out.blockDimensions = [.fours] ∧ out.runtimeArgs.entries = [("x0_blk0_size", 4)] := by
  obtain ⟨out, hrun, hread⟩ := exists_of_toOption h
  obtain ⟨hloops, hblocks, hargs⟩ := by simpa only [Outcome.blocked, Prod.mk.injEq] using hread
  obtain ⟨c, hc, hfirst⟩ := List.map_eq_singleton_iff.mp hloops
  exact ⟨out, c, hrun, hc, List.mem_of_head? hfirst, hblocks, hargs⟩

theorem fours_sizes {args : SortedMap String Int64} (hargs : args.entries = [("x0_blk0_size", 4)])
    (s : String) (n : Int64) (h : args.find? s = some n) : Valuation.fours s = n.toInt := by
  have hin := SortedMap.mem_entries_of_find? h
  rw [hargs] at hin
  obtain ⟨rfl, rfl⟩ := Prod.mk.inj (List.mem_singleton.mp hin)
  rfl

/-- Widened by two points on either side, eight points are still three tiles. -/
theorem exactBlocks_tiled_iff_widened : ∃ out c,
    Pipeline.run .fours [.widened (-2) 2] = .ok out ∧ out.clusters = [c] ∧
      ⟨.closed .fours (.int (-2)) (.int 2), .forward⟩ ∈ c.loops ∧
      (Interval.closed .fours (.int (-2)) (.int 2)).pointCount Valuation.fours = 12 ∧
      (Interval.closed .fours (.int (-2)) (.int 2)).TiledBy Valuation.fours 4 := by
  obtain ⟨out, c, hrun, hc, hin, hblocks, hargs⟩ := blocked_cases (-2) 2 (by decide +kernel)
  refine ⟨out, c, hrun, hc, hin, by decide, ?_⟩
  have htiled := exactBlocks_tiled_iff (v := Valuation.fours) rfl rfl rfl (by decide) hrun
    (by simp [hblocks]) (fours_sizes hargs) c (hc ▸ List.mem_cons_self) .fours
    (.int (-2)) (.int 2) "x" 0 8 (Cluster.interval_mem hin) rfl rfl
    (.inl (hblocks ▸ List.mem_cons_self)) (by rw [hblocks]; rfl) rfl rfl
  exact htiled.1.mpr (htiled.2.mpr (.inr (by decide)))

/-- Widened by one point, eight points are no whole number of tiles. -/
theorem exactBlocks_not_tiled : ∃ out c,
    Config.fours.exactBlocks = true ∧ Config.fours.gridShape = some [8] ∧
      Pipeline.run .fours [.widened 0 1] = .ok out ∧ out.clusters = [c] ∧
      ⟨.closed .fours (.int 0) (.int 1), .forward⟩ ∈ c.loops ∧
      (out.blockDimensions.map Dimension.root).eraseDups = [.basic "x"] ∧
      Valuation.fours "x_M" - Valuation.fours "x_m" + 1 = 8 ∧
      (∀ s n, out.runtimeArgs.find? s = some n → Valuation.fours s = n.toInt) ∧
      Dimension.fours.step.denote Valuation.fours = 4 ∧
      ¬(4 : Int) ∣ (Interval.closed .fours (.int 0) (.int 1)).pointCount Valuation.fours := by
  obtain ⟨out, c, hrun, hc, hin, hblocks, hargs⟩ := blocked_cases 0 1 (by decide +kernel)
  exact ⟨out, c, rfl, rfl, hrun, hc, hin, by rw [hblocks]; rfl, by decide,
    fours_sizes hargs, by decide, by decide⟩

end LoopNest
