import LoopNest.Proofs.QueueRuns
import Mathlib.Data.List.Flatten

namespace LoopNest.Queue

/-- A block of neighbours in a sequence, where it starts, and loops that go around it. -/
structure Stretch (ε : Type) where
  outer : List IterationInterval
  start : Nat
  block : List ε

namespace Stretch
variable {ε : Type} {loops : ε → List IterationInterval} {s t u : Stretch ε}

def stop (s : Stretch ε) : Nat := s.start + s.block.length

def whole (elements : List ε) : Stretch ε := ⟨[], 0, elements⟩

def Covers (s : Stretch ε) (i : Nat) : Prop := s.start ≤ i ∧ i < s.stop

instance : Decidable (s.Covers i) := inferInstanceAs (Decidable (_ ∧ _))

def Shares (loops : ε → List IterationInterval) (s : Stretch ε) : Prop :=
  ∀ e ∈ s.block, s.outer <+: loops e

/-- The second is a block of the first that shares its loops and has no neighbour, within the first,
that shares them. -/
structure Part (loops : ε → List IterationInterval) (s t : Stretch ε) : Prop where
  nonempty : t.block ≠ []
  shares : t.Shares loops
  around : ∃ before after, s.block = before ++ t.block ++ after ∧
    t.start = s.start + before.length ∧
    (∀ e ∈ before.getLast?, ¬ t.outer <+: loops e) ∧ ∀ e ∈ after.head?, ¬ t.outer <+: loops e

structure Encloses (s t : Stretch ε) : Prop where
  start : s.start ≤ t.start
  stop : t.stop ≤ s.stop
  outer : s.outer <+: t.outer
  deeper : s.outer.length < t.outer.length

def WholeFirst (s t : Stretch ε) : Prop := s.Encloses t ∨ s.stop ≤ t.start

def PartsFirst (s t : Stretch ε) : Prop := t.Encloses s ∨ s.stop ≤ t.start

end Stretch

open Stretch

def placed {ε : Type} (start : Nat) : List (List IterationInterval × List ε) → List (Stretch ε)
  | [] => []
  | (outer, run) :: runs => ⟨outer, start, run⟩ :: placed (start + run.length) runs

abbrev runsOf {ε : Type} (loops : ε → List IterationInterval) (level : Nat) (s : Stretch ε) :
    List (Stretch ε) :=
  placed s.start (groupRuns loops level s.block)

/-- The nodes below a stretch, down a number of levels. What is arranged is a node and the nodes
below it. -/
def below {ε : Type} (arrange : Stretch ε → List (Stretch ε) → List (Stretch ε))
    (loops : ε → List IterationInterval) : Nat → Nat → Stretch ε → List (Stretch ε)
  | 0, _, _ => []
  | levels + 1, level, s => (runsOf loops level s).flatMap fun t =>
    if t.outer.length < level then [] else arrange t (below arrange loops levels (level + 1) t)

def preorder {ε : Type} (loops : ε → List IterationInterval) (elements : List ε) :
    List (Stretch ε) :=
  below List.cons loops (maxDepth loops elements) 1 (whole elements)

def postorder {ε : Type} (loops : ε → List IterationInterval) (elements : List ε) :
    List (Stretch ε) :=
  below (fun t ts => ts ++ [t]) loops (maxDepth loops elements) 1 (whole elements) ++
    [whole elements]

section
variable {ε : Type} {loops : ε → List IterationInterval} {s p t : Stretch ε}

namespace Stretch

theorem Part.mem (h : s.Part loops t) : ∀ e ∈ t.block, e ∈ s.block := by
  obtain ⟨before, after, hs, -⟩ := h.around
  intro e he
  simp [hs, he]

theorem Part.outer_le (h : s.Part loops t) (hs : s.Shares loops)
    (hle : s.outer.length ≤ t.outer.length) : s.outer <+: t.outer := by
  obtain ⟨e, he⟩ := List.exists_mem_of_ne_nil _ h.nonempty
  exact List.prefix_of_prefix_length_le (hs e (h.mem e he)) (h.shares e he) hle

theorem Part.encloses (h : s.Part loops t) (hs : s.Shares loops)
    (hlt : s.outer.length < t.outer.length) : s.Encloses t := by
  obtain ⟨before, after, hblock, hstart, -⟩ := h.around
  have hlen := congrArg List.length hblock
  simp only [List.length_append] at hlen
  refine ⟨?_, ?_, h.outer_le hs (Nat.le_of_lt hlt), hlt⟩
  · omega
  · simp only [stop]
    omega

theorem Part.trans (hp : s.Part loops p) (ht : p.Part loops t) (hle : p.outer <+: t.outer) :
    s.Part loops t := by
  obtain ⟨before, after, hs, hstart, hleft, hright⟩ := hp.around
  obtain ⟨before', after', hp', hstart', hleft', hright'⟩ := ht.around
  refine ⟨ht.nonempty, ht.shares, before ++ before', after' ++ after, ?_, ?_, ?_, ?_⟩
  · simp [hs, hp']
  · simp only [List.length_append]
    omega
  · intro e he hshare
    rw [List.getLast?_append, Option.mem_def, Option.or_eq_some_iff] at he
    rcases he with he | ⟨-, he⟩
    · exact hleft' e he hshare
    · exact hleft e he (hle.trans hshare)
  · intro e he hshare
    rw [List.head?_append, Option.mem_def, Option.or_eq_some_iff] at he
    rcases he with he | ⟨-, he⟩
    · exact hright' e he hshare
    · exact hright e he (hle.trans hshare)

/-- A part with the loops of the whole is the whole. -/
theorem Part.eq_of_outer (h : p.Part loops t) (hp : p.Shares loops) (houter : p.outer = t.outer) :
    t = p := by
  obtain ⟨before, after, hblock, hstart, hleft, hright⟩ := h.around
  have hbefore : before = [] := by
    cases hlast : before.getLast? with
    | none => exact List.getLast?_eq_none_iff.mp hlast
    | some e =>
      have hmem : e ∈ p.block := by simp [hblock, List.mem_of_getLast? hlast]
      exact absurd (houter ▸ hp e hmem) (hleft e hlast)
  have hafter : after = [] := by
    cases hhead : after.head? with
    | none => exact List.head?_eq_none_iff.mp hhead
    | some e =>
      have hmem : e ∈ p.block := by simp [hblock, List.mem_of_head? hhead]
      exact absurd (houter ▸ hp e hmem) (hright e hhead)
  subst hbefore hafter
  obtain ⟨outer, start, block⟩ := t
  obtain ⟨outer', start', block'⟩ := p
  simp_all

end Stretch

theorem mem_placed {start : Nat} {runs : List (List IterationInterval × List ε)} :
    t ∈ placed start runs ↔ ∃ pre post, runs = pre ++ (t.outer, t.block) :: post ∧
      t.start = start + (pre.flatMap Prod.snd).length := by
  induction runs generalizing start with
  | nil => simp [placed]
  | cons r runs ih =>
    obtain ⟨outer, run⟩ := r
    rw [placed, List.mem_cons, ih]
    constructor
    · rintro (rfl | ⟨pre, post, rfl, hstart⟩)
      · exact ⟨[], runs, rfl, rfl⟩
      · refine ⟨(outer, run) :: pre, post, rfl, ?_⟩
        simp only [List.flatMap_cons, List.length_append]
        omega
    · rintro ⟨pre, post, hruns, hstart⟩
      cases pre with
      | nil =>
        obtain ⟨hr, rfl⟩ := List.cons.inj hruns
        obtain ⟨rfl, rfl⟩ := Prod.mk.inj hr
        left
        rw [← (show t.start = start from hstart)]
      | cons r pre =>
        obtain ⟨rfl, rfl⟩ := List.cons.inj hruns
        refine .inr ⟨pre, post, rfl, ?_⟩
        simp only [List.flatMap_cons, List.length_append] at hstart
        omega

/-- Runs do not overlap. -/
theorem placed_apart (start : Nat) (runs : List (List IterationInterval × List ε)) :
    (placed start runs).Pairwise fun t u => t.stop ≤ u.start := by
  induction runs generalizing start with
  | nil => exact .nil
  | cons r runs ih =>
    refine .cons ?_ (ih _)
    intro u hu
    obtain ⟨pre, post, -, hstart⟩ := mem_placed.mp hu
    simp only [stop]
    omega

theorem runs_apart (loops : ε → List IterationInterval) (level : Nat) (s : Stretch ε) :
    (runsOf loops level s).Pairwise fun t u => t.stop ≤ u.start :=
  placed_apart _ _

theorem prefix_iff_take {e : ε} {level : Nat} {outer : List IterationInterval}
    (h : outer.length = level) : outer <+: loops e ↔ (loops e).take level = outer := by
  rw [List.prefix_iff_eq_take, h]
  exact eq_comm

theorem key_of_run (h : p ∈ runsOf loops level s) :
    p.block ≠ [] ∧ ∀ e ∈ p.block, (loops e).take level = p.outer := by
  obtain ⟨pre, post, hruns, -⟩ := mem_placed.mp h
  have hp : (p.outer, p.block) ∈ groupRuns loops level s.block := by
    rw [hruns]
    exact List.mem_append_right pre List.mem_cons_self
  exact run_of_mem_runsBy hp

theorem mem_of_mem_run (h : p ∈ runsOf loops level s) : ∀ e ∈ p.block, e ∈ s.block := by
  obtain ⟨pre, post, hruns, -⟩ := mem_placed.mp h
  have hp : (p.outer, p.block) ∈ groupRuns loops level s.block := by
    rw [hruns]
    exact List.mem_append_right pre List.mem_cons_self
  exact mem_of_mem_runsBy hp

/-- A run that reaches the level is a part with as many loops. -/
theorem part_of_run (h : p ∈ runsOf loops level s) (hlong : ¬ p.outer.length < level) :
    p.outer.length = level ∧ s.Part loops p := by
  obtain ⟨pre, post, hruns, hstart⟩ := mem_placed.mp h
  have hblock := runsBy_flatMap (fun e => (loops e).take level) s.block
  rw [← groupRuns, hruns] at hblock
  obtain ⟨hne, hkey⟩ := key_of_run h
  have hlen : p.outer.length = level := by
    obtain ⟨e, he⟩ := List.exists_mem_of_ne_nil _ hne
    have hle := List.length_take_le level (loops e)
    rw [hkey e he] at hle
    omega
  obtain ⟨hleft, hright⟩ := neighbours_of_runsBy hruns
  refine ⟨hlen, hne, fun e he => (prefix_iff_take hlen).mpr (hkey e he),
    pre.flatMap Prod.snd, post.flatMap Prod.snd, ?_, hstart, ?_, ?_⟩
  · simpa using hblock.symm
  · exact fun e he => mt (prefix_iff_take hlen).mp (hleft e he)
  · exact fun e he => mt (prefix_iff_take hlen).mp (hright e he)

/-- Every deep enough part lies in a run, and is a part of it. -/
theorem exists_run_of_part (h : s.Part loops t) (hle : level ≤ t.outer.length) :
    ∃ p ∈ runsOf loops level s, p.outer = t.outer.take level ∧ p.Part loops t := by
  obtain ⟨before, after, hblock, hstart, hleft, hright⟩ := h.around
  have hkey : ∀ e ∈ t.block, (loops e).take level = t.outer.take level := by
    intro e he
    have hpre := (List.take_prefix level t.outer).trans (h.shares e he)
    exact (prefix_iff_take (List.length_take_of_le hle)).mp hpre
  obtain ⟨pre, b, a, post, hruns, rfl, rfl⟩ := exists_run_around before after h.nonempty hkey
  refine ⟨⟨t.outer.take level, s.start + (pre.flatMap Prod.snd).length, b ++ t.block ++ a⟩,
    mem_placed.mpr ⟨pre, post, ?_, rfl⟩, rfl, h.nonempty, h.shares, b, a, rfl, ?_, ?_, ?_⟩
  · rw [groupRuns, hblock, hruns]
  · simp only [List.length_append] at hstart
    exact hstart.trans (Nat.add_assoc _ _ _).symm
  · intro e he
    refine hleft e ?_
    rw [List.getLast?_append, Option.mem_def.mp he, Option.some_or]
    rfl
  · intro e he
    refine hright e ?_
    rw [List.head?_append, Option.mem_def.mp he, Option.some_or]
    rfl

structure Arranges (arrange : Stretch ε → List (Stretch ε) → List (Stretch ε))
    (R : Stretch ε → Stretch ε → Prop) : Prop where
  perm : ∀ s ts, (arrange s ts).Perm (s :: ts)
  pairwise : ∀ {s ts}, (∀ t ∈ ts, s.Encloses t) → ts.Pairwise R → (arrange s ts).Pairwise R
  apart : ∀ {s t : Stretch ε}, s.stop ≤ t.start → R s t
  irrefl : ∀ {s : Stretch ε}, s.block ≠ [] → ¬ R s s

theorem Stretch.start_lt_stop (h : s.block ≠ []) : s.start < s.stop :=
  Nat.lt_add_of_pos_right (List.length_pos_of_ne_nil h)

theorem arranges_cons : Arranges (ε := ε) List.cons WholeFirst where
  perm _ _ := .refl _
  pairwise henc hts := .cons (fun t ht => .inl (henc t ht)) hts
  apart := .inr
  irrefl hne h := by
    rcases h with h | h
    · exact Nat.lt_irrefl _ h.deeper
    · exact Nat.not_le_of_lt (start_lt_stop hne) h

theorem arranges_snoc : Arranges (ε := ε) (fun t ts => ts ++ [t]) PartsFirst where
  perm s ts := List.perm_append_singleton s ts
  pairwise henc hts := List.pairwise_append.mpr
    ⟨hts, List.pairwise_singleton _ _, fun t ht u hu => by
      rw [List.mem_singleton.mp hu]
      exact .inl (henc t ht)⟩
  apart := .inr
  irrefl := arranges_cons.irrefl

/-- The nodes that a run accounts for: none if it ends above the level. -/
abbrev nodesOf (arrange : Stretch ε → List (Stretch ε) → List (Stretch ε))
    (loops : ε → List IterationInterval) (levels level : Nat) (p : Stretch ε) :
    List (Stretch ε) :=
  if p.outer.length < level then [] else arrange p (below arrange loops levels (level + 1) p)

section
variable {arrange : Stretch ε → List (Stretch ε) → List (Stretch ε)}
  {R : Stretch ε → Stretch ε → Prop} {levels level : Nat}

theorem below_succ : below arrange loops (levels + 1) level s =
    (runsOf loops level s).flatMap (nodesOf arrange loops levels level) := rfl

theorem mem_below_succ (harr : Arranges arrange R) :
    t ∈ below arrange loops (levels + 1) level s ↔ ∃ p ∈ runsOf loops level s,
      ¬ p.outer.length < level ∧ (t = p ∨ t ∈ below arrange loops levels (level + 1) p) := by
  rw [below_succ, List.mem_flatMap]
  refine exists_congr fun p => and_congr_right fun _ => ?_
  rw [nodesOf]
  split
  · simp [*]
  · simp [*, (harr.perm p _).mem_iff]

theorem part_of_mem_below (harr : Arranges arrange R)
    (h : t ∈ below arrange loops levels level s) : s.Part loops t ∧ level ≤ t.outer.length := by
  induction levels generalizing level s with
  | zero => cases h
  | succ levels ih =>
    obtain ⟨p, hp, hlong, ht⟩ := (mem_below_succ harr).mp h
    obtain ⟨hlen, hpart⟩ := part_of_run hp hlong
    rcases ht with rfl | ht
    · exact ⟨hpart, hlen.ge⟩
    · obtain ⟨hbelow, hle⟩ := ih ht
      exact ⟨hpart.trans hbelow (hbelow.outer_le hpart.shares (by omega)), by omega⟩

theorem mem_below_of_part (harr : Arranges arrange R) (h : s.Part loops t)
    (hle : level ≤ t.outer.length) (hlevels : ∀ e ∈ s.block, (loops e).length < level + levels) :
    t ∈ below arrange loops levels level s := by
  induction levels generalizing level s with
  | zero =>
    obtain ⟨e, he⟩ := List.exists_mem_of_ne_nil _ h.nonempty
    have hlen := (h.shares e he).length_le
    have hlt := hlevels e (h.mem e he)
    omega
  | succ levels ih =>
    obtain ⟨p, hp, houter, hpart⟩ := exists_run_of_part h hle
    have hlong : ¬ p.outer.length < level := by
      rw [houter, List.length_take_of_le hle]
      omega
    obtain ⟨hlen, hsp⟩ := part_of_run hp hlong
    refine (mem_below_succ harr).mpr ⟨p, hp, hlong, ?_⟩
    rcases Nat.eq_or_lt_of_le hle with heq | hlt
    · left
      refine hpart.eq_of_outer hsp.shares (houter.trans ?_)
      rw [heq, List.take_length]
    · refine .inr (ih hpart hlt fun e he => ?_)
      have hbound := hlevels e (hsp.mem e he)
      omega

/-- A node and what is below it stay within their run. -/
theorem within_of_mem_nodesOf (harr : Arranges arrange R) (hp : p ∈ runsOf loops level s)
    (ht : t ∈ nodesOf arrange loops levels level p) : p.start ≤ t.start ∧ t.stop ≤ p.stop := by
  rw [nodesOf] at ht
  split at ht
  · cases ht
  · rename_i hlong
    obtain ⟨hlen, hsp⟩ := part_of_run hp hlong
    rcases List.mem_cons.mp ((harr.perm p _).mem_iff.mp ht) with rfl | ht
    · exact ⟨Nat.le_refl _, Nat.le_refl _⟩
    · obtain ⟨hpart, hle⟩ := part_of_mem_below harr ht
      have henc := hpart.encloses hsp.shares (by omega)
      exact ⟨henc.start, henc.stop⟩

/-- The nodes below a stretch are in the order of their arrangement. -/
theorem below_pairwise (harr : Arranges arrange R) :
    (below arrange loops levels level s).Pairwise R := by
  induction levels generalizing level s with
  | zero => exact .nil
  | succ levels ih =>
    refine List.pairwise_flatMap.mpr ⟨fun p hp => ?_, ?_⟩
    · split
      · exact .nil
      · rename_i hlong
        obtain ⟨hlen, hsp⟩ := part_of_run hp hlong
        refine harr.pairwise (fun t ht => ?_) ih
        obtain ⟨hpart, hle⟩ := part_of_mem_below harr ht
        exact hpart.encloses hsp.shares (by omega)
    · refine (runs_apart _ _ _).imp_of_mem fun {p q} hp hq hpq t ht u hu => harr.apart ?_
      have ht := within_of_mem_nodesOf harr hp ht
      have hu := within_of_mem_nodesOf harr hq hu
      omega

theorem below_nodup (harr : Arranges arrange R) :
    (below arrange loops levels level s).Nodup := by
  refine (below_pairwise harr).imp_of_mem fun ht _ hR heq => ?_
  exact harr.irrefl (part_of_mem_below harr ht).1.nonempty (heq ▸ hR)

/-- Below the deepest nest there are no more nodes. -/
theorem below_of_le (hlevels : ∀ e ∈ s.block, (loops e).length < level + levels)
    (hle : levels ≤ levels') :
    below arrange loops levels' level s = below arrange loops levels level s := by
  induction levels generalizing levels' level s with
  | zero =>
    cases levels' with
    | zero => rfl
    | succ levels' =>
      rw [below_succ, below, List.flatMap_eq_nil_iff]
      intro p hp
      obtain ⟨hne, hkey⟩ := key_of_run hp
      obtain ⟨e, he⟩ := List.exists_mem_of_ne_nil _ hne
      have hlt := hlevels e (mem_of_mem_run hp e he)
      rw [nodesOf, if_pos]
      rw [← hkey e he, List.length_take]
      omega
  | succ levels ih =>
    obtain ⟨levels', rfl⟩ : ∃ n, levels' = n + 1 := ⟨levels' - 1, by omega⟩
    rw [below_succ, below_succ]
    refine List.flatMap_congr fun p hp => ?_
    rw [nodesOf, nodesOf, ih _ (by omega)]
    intro e he
    have hlt := hlevels e (mem_of_mem_run hp e he)
    omega

theorem exists_placed_covering {runs : List (List IterationInterval × List ε)} {start i : Nat}
    (hi : start ≤ i) (he : (runs.flatMap Prod.snd)[i - start]? = some e) :
    ∃ p ∈ placed start runs, p.start ≤ i ∧ p.block[i - p.start]? = some e := by
  induction runs generalizing start with
  | nil => simp at he
  | cons r runs ih =>
    obtain ⟨outer, run⟩ := r
    rw [List.flatMap_cons, List.getElem?_append] at he
    split at he
    · exact ⟨⟨outer, start, run⟩, List.mem_cons_self, hi, he⟩
    · rename_i hlen
      rw [Nat.sub_sub] at he
      dsimp only at hlen he
      obtain ⟨p, hp, hpi⟩ := ih (by omega) he
      exact ⟨p, List.mem_cons_of_mem _ hp, hpi⟩

theorem exists_run_covering (loops : ε → List IterationInterval) (level : Nat) (hi : s.start ≤ i)
    (he : s.block[i - s.start]? = some e) :
    ∃ p ∈ runsOf loops level s, p.start ≤ i ∧ p.block[i - p.start]? = some e := by
  have hall : (groupRuns loops level s.block).flatMap Prod.snd = s.block := runsBy_flatMap _ _
  exact exists_placed_covering hi (hall.symm ▸ he)

/-- Runs beside a position have no nodes there. -/
theorem countP_beside (harr : Arranges arrange R) (levels i : Nat) {ps : List (Stretch ε)}
    (hps : ∀ p ∈ ps, p ∈ runsOf loops level s ∧ (p.stop ≤ i ∨ i < p.start)) :
    (ps.flatMap (nodesOf arrange loops levels level)).countP (Covers · i) = 0 := by
  refine List.countP_eq_zero.mpr fun t ht hcov => ?_
  obtain ⟨p, hp, ht⟩ := List.mem_flatMap.mp ht
  obtain ⟨hrun, hbeside⟩ := hps p hp
  have hin := within_of_mem_nodesOf harr hrun ht
  obtain ⟨hlow, hhigh⟩ := of_decide_eq_true hcov
  omega

/-- Only the run over a position has nodes there. -/
theorem countP_over (harr : Arranges arrange R) (levels : Nat) (hp : p ∈ runsOf loops level s)
    (hi : p.Covers i) :
    (below arrange loops (levels + 1) level s).countP (Covers · i) =
      (nodesOf arrange loops levels level p).countP (Covers · i) := by
  obtain ⟨hlow, hhigh⟩ := hi
  obtain ⟨pre, post, hruns⟩ := List.append_of_mem hp
  obtain ⟨-, hafter, hbefore⟩ := List.pairwise_append.mp (hruns ▸ runs_apart loops level s)
  have hpre := countP_beside harr levels i fun q (hq : q ∈ pre) =>
    ⟨hruns ▸ List.mem_append_left _ hq,
      .inl (Nat.le_trans (hbefore q hq p List.mem_cons_self) hlow)⟩
  have hpost := countP_beside harr levels i fun q (hq : q ∈ post) =>
    ⟨hruns ▸ List.mem_append_right _ (List.mem_cons_of_mem _ hq),
      .inr (Nat.lt_of_lt_of_le hhigh ((List.pairwise_cons.mp hafter).1 q hq))⟩
  rw [below_succ, hruns, List.flatMap_append, List.flatMap_cons, List.countP_append,
    List.countP_append, hpre, hpost, Nat.zero_add, Nat.add_zero]

/-- An element is in one node for each of its loops. -/
theorem countP_below (harr : Arranges arrange R) (hs : s.Shares loops)
    (hlevel : level = s.outer.length + 1)
    (hlevels : ∀ e ∈ s.block, (loops e).length < level + levels) (hi : s.start ≤ i)
    (he : s.block[i - s.start]? = some e) :
    s.outer.length + (below arrange loops levels level s).countP (Covers · i) =
      (loops e).length := by
  have hge := (hs e (List.mem_of_getElem? he)).length_le
  induction levels generalizing level s with
  | zero =>
    have hlt := hlevels e (List.mem_of_getElem? he)
    rw [below, List.countP_nil]
    omega
  | succ levels ih =>
    obtain ⟨p, hp, hpi, hpe⟩ := exists_run_covering loops level hi he
    have hmem := List.mem_of_getElem? hpe
    have hcov : p.Covers i := by
      have hlt := (List.getElem?_eq_some_iff.mp hpe).1
      simp only [Covers, stop]
      omega
    rw [countP_over harr levels hp hcov, nodesOf]
    by_cases hshort : p.outer.length < level
    · have hkey := congrArg List.length ((key_of_run hp).2 e hmem)
      rw [List.length_take] at hkey
      rw [if_pos hshort, List.countP_nil]
      omega
    · obtain ⟨hlen, hsp⟩ := part_of_run hp hshort
      have hbound : ∀ e ∈ p.block, (loops e).length < level + 1 + levels := by
        intro e he
        have hlt := hlevels e (mem_of_mem_run hp e he)
        omega
      have hbelow := ih hsp.shares (by omega) hbound hpi hpe (hsp.shares e hmem).length_le
      rw [if_neg hshort, (harr.perm p _).countP_eq, List.countP_cons, if_pos (decide_eq_true hcov)]
      omega

end

/-- A stretch inside some loop that cannot be made longer. -/
def IsNode (loops : ε → List IterationInterval) (elements : List ε) (t : Stretch ε) : Prop :=
  t.outer ≠ [] ∧ (whole elements).Part loops t

structure Walks (node : Stretch ε → Prop) (R : Stretch ε → Stretch ε → Prop)
    (calls : List (Stretch ε)) : Prop where
  mem : ∀ t, t ∈ calls ↔ node t
  nodup : calls.Nodup
  order : calls.Pairwise R

theorem shares_whole (loops : ε → List IterationInterval) (elements : List ε) :
    (whole elements).Shares loops :=
  fun _ _ => List.nil_prefix

theorem lt_of_mem_whole {elements : List ε} :
    ∀ e ∈ (whole elements).block, (loops e).length < 1 + maxDepth loops elements := by
  intro e he
  have hle : (loops e).length ≤ maxDepth loops elements := length_le_maxDepth he
  omega

/-- The nodes below the whole sequence are all the nodes. -/
theorem walks_below {arrange : Stretch ε → List (Stretch ε) → List (Stretch ε)}
    {R : Stretch ε → Stretch ε → Prop} (harr : Arranges arrange R)
    (loops : ε → List IterationInterval) (elements : List ε) :
    Walks (IsNode loops elements) R
      (below arrange loops (maxDepth loops elements) 1 (whole elements)) where
  mem t := by
    constructor
    · intro ht
      obtain ⟨hpart, hle⟩ := part_of_mem_below harr ht
      exact ⟨List.ne_nil_of_length_pos hle, hpart⟩
    · rintro ⟨hne, hpart⟩
      exact mem_below_of_part harr hpart (List.length_pos_of_ne_nil hne) lt_of_mem_whole
  nodup := below_nodup harr
  order := below_pairwise harr

theorem preorder_walks (loops : ε → List IterationInterval) (elements : List ε) :
    Walks (IsNode loops elements) WholeFirst (preorder loops elements) :=
  walks_below arranges_cons loops elements

theorem postorder_walks (loops : ε → List IterationInterval) (elements : List ε) :
    Walks (fun t => t = whole elements ∨ IsNode loops elements t) PartsFirst
      (postorder loops elements) := by
  have hbelow := walks_below arranges_snoc loops elements
  refine ⟨fun t => ?_, ?_, ?_⟩
  · rw [postorder, List.mem_append, hbelow.mem, List.mem_singleton]
    exact or_comm
  · refine List.nodup_append.mpr ⟨hbelow.nodup, List.pairwise_singleton _ _, ?_⟩
    rintro t ht _ hwhole rfl
    rw [List.mem_singleton] at hwhole
    exact ((hbelow.mem t).mp ht).1 (congrArg outer hwhole)
  · refine arranges_snoc.pairwise (fun t ht => ?_) hbelow.order
    obtain ⟨hne, hpart⟩ := (hbelow.mem t).mp ht
    exact hpart.encloses (shares_whole loops elements) (List.length_pos_of_ne_nil hne)

theorem countP_walk {arrange : Stretch ε → List (Stretch ε) → List (Stretch ε)}
    {R : Stretch ε → Stretch ε → Prop} (harr : Arranges arrange R) {elements : List ε} {i : Nat}
    (he : elements[i]? = some e) :
    (below arrange loops (maxDepth loops elements) 1 (whole elements)).countP (Covers · i) =
      (loops e).length := by
  have h := countP_below harr (shares_whole loops elements) rfl lt_of_mem_whole (Nat.zero_le i) he
  rwa [show (whole elements).outer.length = 0 from rfl, Nat.zero_add] at h

end

section
variable {ε : Type} {m : Type → Type} [Monad m]

def visit (callback : List ε → List IterationInterval → m (List ε)) (s : Stretch ε) : m Unit :=
  (fun _ => ()) <$> callback s.block s.outer

def visiting (callback : List ε → List IterationInterval → m (List ε)) (ts : List (Stretch ε))
    (elements : List ε) : m (List ε) :=
  (fun _ => elements) <$> forM ts (visit callback)

def Keeps (callback : List ε → List IterationInterval → m (List ε)) : Prop :=
  ∀ xs outer, callback xs outer = (fun _ => xs) <$> callback xs outer

variable [LawfulMonad m] {callback : List ε → List IterationInterval → m (List ε)}
  {loops : ε → List IterationInterval}

theorem visiting_singleton (hcb : Keeps callback) (s : Stretch ε) :
    visiting callback [s] s.block = callback s.block s.outer := by
  rw [hcb s.block s.outer]
  simp [visiting, visit]

theorem visiting_bind {f : List ε → m (List ε)} {xs : List ε}
    (hf : f xs = visiting callback us ys) (ts : List (Stretch ε)) :
    visiting callback ts xs >>= f = visiting callback (ts ++ us) ys := by
  rw [visiting, bind_map_left, hf]
  simp [visiting, List.forM_append]

/-- Visiting the nodes of each of several stretches is visiting all those nodes in turn. -/
theorem mapM_visiting {f : Stretch ε → m (List ε)} {nodes : Stretch ε → List (Stretch ε)}
    (ts : List (Stretch ε)) (hf : ∀ t, f t = visiting callback (nodes t) t.block) :
    ts.mapM f = (fun _ => ts.map block) <$> forM (ts.flatMap nodes) (visit callback) := by
  induction ts with
  | nil => simp
  | cons t ts ih =>
    rw [List.mapM_cons, hf, ih, List.flatMap_cons, List.forM_append]
    simp [visiting]

theorem map_placed (start : Nat) (runs : List (List IterationInterval × List ε)) :
    (placed start runs).map (fun t => (t.outer, t.block)) = runs := by
  induction runs generalizing start with
  | nil => rfl
  | cons r runs ih => rw [placed, List.map_cons, ih]

/-- A level of a queue makes the calls of its runs in turn and gives the elements back. -/
theorem level_visiting {f : List IterationInterval × List ε → m (List ε)}
    {nodes : Stretch ε → List (Stretch ε)} {level : Nat} {s : Stretch ε}
    (hf : ∀ t : Stretch ε, f (t.outer, t.block) = visiting callback (nodes t) t.block) :
    List.flatten <$> (groupRuns loops level s.block).mapM f =
      visiting callback ((runsOf loops level s).flatMap nodes) s.block := by
  have hruns := map_placed s.start (groupRuns loops level s.block)
  have hall : ((runsOf loops level s).map block).flatten = s.block := by
    have h := runsBy_flatMap (fun e => (loops e).take level) s.block
    rw [← groupRuns, ← hruns, List.flatMap_map] at h
    exact h
  have hmap := mapM_visiting (f := f ∘ fun t => (t.outer, t.block)) (runsOf loops level s) hf
  rw [← List.mapM_map, hruns] at hmap
  rw [hmap, visiting, Functor.map_map, hall]

/-- Dividing first calls for the parts of a stretch and then for the stretch. -/
theorem divideFirstWithin_visits (hcb : Keeps callback) (levels level : Nat) (s : Stretch ε) :
    divideFirstWithin loops callback levels s.block level s.outer =
      visiting callback (below (fun t ts => ts ++ [t]) loops levels level s ++ [s]) s.block := by
  induction levels generalizing level s with
  | zero => rw [divideFirstWithin, below, List.nil_append, visiting_singleton hcb]
  | succ levels ih =>
    have hlast := visiting_bind (f := fun xs => callback xs s.outer)
      (visiting_singleton hcb s).symm
    rw [divideFirstWithin, below, ← hlast, ← level_visiting, bind_map_left]
    intro t
    dsimp only
    split
    · simp [visiting]
    · rw [ih]

/-- Applying first calls for every part of a stretch and then for the parts of that part. -/
theorem applyFirst_visits (hcb : Keeps callback) (levels level : Nat) (s : Stretch ε) :
    applyFirst loops callback levels s.block level =
      visiting callback (below List.cons loops levels level s) s.block := by
  induction levels generalizing level s with
  | zero => simp [applyFirst, below, visiting]
  | succ levels ih =>
    rw [applyFirst, below, bind_pure_comp]
    refine level_visiting fun t => ?_
    dsimp only
    split
    · simp [visiting]
    · rw [← visiting_singleton hcb]
      exact visiting_bind (ih (level + 1) t) [t]

structure Splits (loops : ε → List IterationInterval) (level : Nat) (elements : List ε)
    (runs : List (List IterationInterval × List ε)) : Prop where
  whole : runs.flatMap Prod.snd = elements
  nonempty : ∀ r ∈ runs, r.2 ≠ []
  key : ∀ r ∈ runs, ∀ e ∈ r.2, (loops e).take level = r.1
  apart : runs.IsChain fun r s => r.1 ≠ s.1

theorem groupRuns_splits (loops : ε → List IterationInterval) (level : Nat) (elements : List ε) :
    Splits loops level elements (groupRuns loops level elements) where
  whole := runsBy_flatMap _ _
  nonempty _ hr := (run_of_mem_runsBy hr).1
  key _ hr := (run_of_mem_runsBy hr).2
  apart := runsBy_chain _ _

/-- A queue visits exactly the tree of nested runs. Each level splits its elements into the runs
that share their first loops. With a callback that keeps its elements, dividing first returns the
elements and calls for every node once, the whole sequence included and parts before wholes;
applying first calls for every node inside some loop once, wholes before parts. So an element is
seen once for every loop around it, and by dividing first once more for the whole sequence. -/
theorem visits_nested_runs (hcb : Keeps callback) (loops : ε → List IterationInterval)
    (elements : List ε) :
    (∀ level, Splits loops level elements (groupRuns loops level elements)) ∧
    (divideFirst loops callback elements 1 [] =
        visiting callback (postorder loops elements) elements ∧
      Walks (fun t => t = whole elements ∨ IsNode loops elements t) PartsFirst
        (postorder loops elements) ∧
      ∀ i e, elements[i]? = some e →
        (postorder loops elements).countP (Covers · i) = (loops e).length + 1) ∧
    ((∀ levels, maxDepth loops elements ≤ levels → applyFirst loops callback levels elements 1 =
        visiting callback (preorder loops elements) elements) ∧
      Walks (IsNode loops elements) WholeFirst (preorder loops elements) ∧
      ∀ i e, elements[i]? = some e →
        (preorder loops elements).countP (Covers · i) = (loops e).length) := by
  refine ⟨fun level => groupRuns_splits loops level elements,
    ⟨?_, postorder_walks loops elements, fun i e he => ?_⟩,
    ⟨fun levels hle => ?_, preorder_walks loops elements, fun i e he => ?_⟩⟩
  · exact divideFirstWithin_visits hcb (maxDepth loops elements) 1 (whole elements)
  · have hcov : (whole elements).Covers i := by
      have hlt := (List.getElem?_eq_some_iff.mp he).1
      simp only [Covers, stop, whole]
      omega
    rw [postorder, List.countP_append, countP_walk arranges_snoc he, List.countP_singleton,
      if_pos (decide_eq_true hcov)]
  · rw [preorder, ← below_of_le lt_of_mem_whole hle]
    exact applyFirst_visits hcb levels 1 (whole elements)
  · exact countP_walk arranges_cons he

end

def note (xs : List (Nat × List IterationInterval)) (outer : List IterationInterval) :
    StateM (List (Nat × List Nat)) (List (Nat × List IterationInterval)) := do
  modify (· ++ [(outer.length, xs.map Prod.fst)])
  return xs

theorem note_keeps : Keeps note := fun _ _ => rfl

def nests : List (Nat × List IterationInterval) :=
  let loop (name : String) : IterationInterval := ⟨.null (.basic name), .forward⟩
  [(0, [loop "a", loop "x"]), (1, [loop "a", loop "y"]), (2, [loop "b"]), (3, [loop "a"])]

theorem note_visits : Keeps note ∧
    (divideFirst Prod.snd note nests 1 []).run [] =
      (nests, [(2, [0]), (2, [1]), (1, [0, 1]), (1, [2]), (1, [3]), (0, [0, 1, 2, 3])]) ∧
    (applyFirst Prod.snd note 2 nests 1).run [] =
      (nests, [(1, [0, 1]), (2, [0]), (2, [1]), (1, [2]), (1, [3])]) := by
  obtain ⟨-, ⟨hdivide, -⟩, happly, -⟩ := visits_nested_runs note_keeps Prod.snd nests
  refine ⟨note_keeps, ?_, ?_⟩
  · rw [hdivide]
    rfl
  · rw [happly 2 (by decide)]
    rfl

end LoopNest.Queue
