import LoopNest.Proofs.AccessDistance
import LoopNest.Proofs.Instances
import LoopNest.Proofs.Returns

namespace LoopNest
namespace Distance

theorem dimensionOf?_eq_some {dims : List Dimension} (h : dimensionOf? dims s = some d) :
    d ∈ dims ∧ d.name = s :=
  ⟨List.mem_of_find?_eq_some h, by simpa using List.find?_some h⟩

theorem dimensionOf?_eq_none {dims : List Dimension} (h : dimensionOf? dims s = none) :
    ∀ d ∈ dims, d.name ≠ s := by
  simpa [dimensionOf?] using h

/-- Basic dimensions are families of their own, so a symbol counts for a loop if it is its index. -/
theorem family_iff {dims : List Dimension} (hb : ∀ d ∈ dims, d.IsBasic) {d : Dimension}
    (hd : d ∈ dims) (s : String) :
    (dimensionOf? dims s).any (·.sharesRoot d) = true ↔ s = d.name := by
  constructor
  · intro h
    obtain ⟨e, he, hr⟩ := (Option.any_eq_true _ _).mp h
    obtain ⟨hm, hn⟩ := dimensionOf?_eq_some he
    rw [((hb e hm).sharesRoot_iff (hb d hd)).mp hr] at hn
    exact hn.symm
  · rintro rfl
    cases he : dimensionOf? dims d.name with
    | none => exact absurd rfl (dimensionOf?_eq_none he d hd)
    | some e =>
      obtain ⟨hm, hn⟩ := dimensionOf?_eq_some he
      rw [(hb e hm).eq_of_name (hb d hd) hn, Option.any_some]
      exact ((hb d hd).sharesRoot_iff (hb d hd)).mpr rfl

def familyOffset (dims : List Dimension) (offsets : SortedMap String Int64)
    (l : IterationInterval) : Int64 :=
  let family := offsets.entries.filter fun e =>
    (dimensionOf? dims e.1).any (·.sharesRoot l.dim)
  ((family.map Prod.snd).find? (· ≠ 0)).getD 0

theorem offsetAlong_eq (dims : List Dimension) (offsets : SortedMap String Int64)
    (l : IterationInterval) : offsetAlong dims offsets l = match l.direction with
      | .forward => .ok (familyOffset dims offsets l)
      | .backward => orOverflow (familyOffset dims offsets l).neg? := rfl

/-- A basic dimension has the offset of its index. -/
theorem familyOffset_basic {dims : List Dimension} (hb : ∀ d ∈ dims, d.IsBasic)
    {l : IterationInterval} (hl : l.dim ∈ dims) (offsets : SortedMap String Int64) :
    familyOffset dims offsets l = (offsets.find? l.dim.name).getD 0 := by
  unfold familyOffset
  dsimp only
  have hmem : ∀ o, o ∈ ((offsets.entries.filter fun e =>
      (dimensionOf? dims e.1).any (·.sharesRoot l.dim)).map Prod.snd) ↔
      offsets.find? l.dim.name = some o := by
    intro o
    rw [SortedMap.find?_eq_some_iff, List.mem_map]
    constructor
    · rintro ⟨e, he, rfl⟩
      obtain ⟨he, hr⟩ := List.mem_filter.mp he
      rw [← (family_iff hb hl e.1).mp hr]
      exact he
    · intro he
      exact ⟨_, List.mem_filter.mpr ⟨he, (family_iff hb hl _).mpr rfl⟩, rfl⟩
  generalize (offsets.entries.filter fun e =>
    (dimensionOf? dims e.1).any (·.sharesRoot l.dim)).map Prod.snd = os at hmem
  cases hf : os.find? (· ≠ 0) with
  | some o => rw [(hmem o).mp (List.mem_of_find?_eq_some hf)]
  | none =>
    cases ho : offsets.find? l.dim.name with
    | none => rfl
    | some o =>
      have hz : o = 0 := by simpa using List.find?_eq_none.mp hf o ((hmem o).mpr ho)
      rw [Option.getD_none, Option.getD_some, hz]

/-- An offset found for a loop is the way between the instances, if the subscripts mention it. -/
theorem offsetAlong_shifted {dims : List Dimension} (hb : ∀ d ∈ dims, d.IsBasic)
    {l : IterationInterval} (hl : l.dim ∈ dims) {offsets : SortedMap String Int64}
    (h : offsetAlong dims offsets l = .ok w) {p q : Valuation} (hs : Shifted offsets p q) :
    ((offsets.find? l.dim.name).isSome → w.toInt = l.along q - l.along p) ∧
      (offsets.find? l.dim.name = none → w = 0) := by
  rw [offsetAlong_eq, familyOffset_basic hb hl] at h
  have hsome : ∀ o, offsets.find? l.dim.name = some o →
      o.toInt = q l.dim.name - p l.dim.name := fun o ho => (hs _ o ho).symm
  cases hd : l.direction with
  | forward =>
    simp only [hd, Except.ok.injEq] at h
    cases ho : offsets.find? l.dim.name with
    | none => simp [← h, ho]
    | some o => simp [← h, ho, hsome o ho, IterationInterval.along, hd]
  | backward =>
    simp only [hd] at h
    cases hn : ((offsets.find? l.dim.name).getD 0).neg? with
    | none => rw [hn] at h; cases h
    | some w' =>
      rw [hn] at h
      have hw : w'.toInt = -((offsets.find? l.dim.name).getD 0).toInt :=
        Int64.ofInt?_eq_some_iff.mp hn
      cases h
      cases ho : offsets.find? l.dim.name with
      | none =>
        simp only [ho, Option.getD_none, Int64.toInt_zero, Int.neg_zero] at hw
        simp [Int64.toInt_inj.mp (hw.trans Int64.toInt_zero.symm)]
      | some o =>
        simp only [ho, Option.getD_some, hsome o ho] at hw
        simp only [Option.isSome_some, forall_const, reduceCtorEq, false_implies, and_true,
          IterationInterval.along, hd]
        omega

/-- A loop that shares no root with the outer ones heads its family. -/
theorem mem_familyHeads {outer inner : List IterationInterval} {l : IterationInterval}
    (hl : ∀ o ∈ outer, o.dim.sharesRoot l.dim = false)
    {seen : List Dimension} (hs : ∀ d ∈ seen, d.sharesRoot l.dim = false) :
    ∃ before after, familyHeads seen (outer ++ l :: inner) = before ++ l :: after ∧
      ∀ o ∈ before, o ∈ outer := by
  induction outer generalizing seen with
  | nil =>
    have hnot : seen.any (·.sharesRoot l.dim) = false := by simpa using hs
    exact ⟨[], familyHeads (l.dim :: seen) inner, by simp [familyHeads, hnot], by simp⟩
  | cons o outer ih =>
    obtain ⟨ho, hl⟩ := List.forall_mem_cons.mp hl
    rw [List.cons_append, familyHeads]
    split
    · obtain ⟨before, after, he, hsub⟩ := ih hl hs
      exact ⟨before, after, he, fun x hx => List.mem_cons_of_mem _ (hsub x hx)⟩
    · obtain ⟨before, after, he, hsub⟩ := ih hl (List.forall_mem_cons.mpr ⟨ho, hs⟩)
      refine ⟨o :: before, after, by rw [he, List.cons_append], fun x hx => ?_⟩
      rcases List.mem_cons.mp hx with rfl | hx
      · exact List.mem_cons_self
      · exact List.mem_cons_of_mem _ (hsub x hx)

theorem familyHeads_subset {seen : List Dimension} {loops : List IterationInterval} :
    ∀ l ∈ familyHeads seen loops, l ∈ loops := by
  induction loops generalizing seen with
  | nil => simp [familyHeads]
  | cons l loops ih =>
    intro x hx
    rw [familyHeads] at hx
    split at hx
    · exact List.mem_cons_of_mem _ (ih x hx)
    · rcases List.mem_cons.mp hx with rfl | hx
      · exact List.mem_cons_self
      · exact List.mem_cons_of_mem _ (ih x hx)

/-- Loops without an offset leave no component, so the first loop with one leads. -/
theorem leading_component {P : IterationInterval → Int64 → Prop}
    {before after : List IterationInterval} {l : IterationInterval}
    {components : List (Dimension × Int64)}
    (h : List.Forall₂ (fun l c => c.1 = l.dim ∧ P l c.2) (before ++ l :: after) components)
    (hbefore : ∀ o ∈ before, ∀ w, P o w → w = 0) (hl : ∀ w, P l w → w ≠ 0) :
    ∃ w rest, components.filter (·.2 ≠ 0) = (l.dim, w) :: rest ∧ P l w := by
  induction before generalizing components with
  | nil =>
    cases h with
    | @cons _ c _ cs hc _ =>
      obtain ⟨hd, hw⟩ := hc
      exact ⟨c.2, cs.filter (·.2 ≠ 0), by simp [hl _ hw, ← hd], hw⟩
  | cons o before ih =>
    cases h with
    | @cons _ c _ cs hc hrest =>
      obtain ⟨ho, hbefore⟩ := List.forall_mem_cons.mp hbefore
      obtain ⟨w, rest, he, hw⟩ := ih hrest hbefore
      exact ⟨w, rest, by simpa [ho _ hc.2] using he, hw⟩

section
variable {loops outer inner : List IterationInterval} {dims : List Dimension} {x y : Access}
  {p q : Valuation}

/-- Instances that touch one element and agree outside of the index variables are at a distance. -/
theorem project_of_shifted (hdims : ∀ l ∈ loops, l.dim ∈ dims) (hb : ∀ d ∈ dims, d.IsBasic)
    {offsets : SortedMap String Int64} (h : project loops dims offsets = .ok r)
    (hs : Shifted offsets p q) (hfix : ∀ s, (∀ d ∈ dims, d.name ≠ s) → p s = q s) :
    ∃ components, r = some (.uniform (components.filter (·.2 ≠ 0))) ∧
      List.Forall₂ (fun l c => c.1 = l.dim ∧
        ((offsets.find? l.dim.name).isSome → c.2.toInt = l.along q - l.along p) ∧
        (offsets.find? l.dim.name = none → c.2 = 0)) (familyHeads [] loops) components := by
  unfold project at h
  split at h
  · rename_i hany
    obtain ⟨e, he, hfree⟩ := List.any_eq_true.mp hany
    obtain ⟨hne, hnone⟩ := of_decide_eq_true hfree
    have hmove := hs e.1 e.2 (SortedMap.find?_of_mem he)
    rw [hfix e.1 (dimensionOf?_eq_none hnone), Int.sub_self] at hmove
    exact absurd (Int64.toInt_inj.mp (hmove.symm.trans Int64.toInt_zero.symm)) hne
  · obtain ⟨components, hc, hr⟩ := Returns.of_bind (returns_ok h)
    refine ⟨components, Returns.of_pure hr, ?_⟩
    have hall := returns_mapM hc
    have hsub : ∀ l ∈ familyHeads [] loops, l ∈ loops := familyHeads_subset
    refine List.Forall₂.imp ?_ ((List.forall₂_and_left _ _).mpr ⟨hsub, hall⟩)
    intro l c hlc
    obtain ⟨hl, hc⟩ := hlc
    obtain ⟨w, hw, hc⟩ := Returns.of_bind hc
    rw [Returns.of_pure hc]
    exact ⟨rfl, offsetAlong_shifted hb (hdims l hl) hw hs⟩

/-- On the first loop that tells two instances apart the distance has its leading component, which
is the way from the first to the second instance. -/
theorem ofAccesses_leading (hdims : ∀ l ∈ loops, l.dim ∈ dims) (hb : ∀ d ∈ dims, d.IsBasic)
    (h : ofAccesses loops dims x y = .ok r) (hk : x.distance y ≠ .unknown)
    (hsame : x.element p = y.element q) (hfix : ∀ s, (∀ d ∈ dims, d.name ≠ s) → p s = q s)
    (hsplit : loops = outer ++ l :: inner) (hagree : Agree (outer.map (·.dim)) p q)
    (hne : p l.dim.name ≠ q l.dim.name) (hm : x.Mentions l.dim.name) :
    ∃ w rest, r = some (.uniform ((l.dim, w) :: rest)) ∧ w.toInt = l.along q - l.along p := by
  unfold ofAccesses at h
  split at h
  · rename_i hd
    exact absurd hsame (Access.element_ne_of_disjoint hd p q)
  · rename_i hd
    exact absurd hd hk
  · rename_i offsets hd
    have hs := (Access.element_eq_iff_shifted hd p q).mp hsame
    obtain ⟨components, rfl, hall⟩ := project_of_shifted hdims hb h hs hfix
    have hagree' : ∀ o ∈ outer, p o.dim.name = q o.dim.name := fun o ho =>
      hagree _ (List.mem_map.mpr ⟨o, ho, rfl⟩)
    have hapart : ∀ o ∈ outer, o.dim.sharesRoot l.dim = false := by
      intro o ho
      rw [Bool.eq_false_iff]
      intro hshare
      have ho' : o ∈ loops := by simp [hsplit, ho]
      have hl' : l ∈ loops := by simp [hsplit]
      have heq := ((hb _ (hdims o ho')).sharesRoot_iff (hb _ (hdims l hl'))).mp hshare
      exact hne (heq ▸ hagree' o ho)
    have hnone : ∀ d ∈ ([] : List Dimension), d.sharesRoot l.dim = false := by simp
    obtain ⟨before, after, hheads, hbefore⟩ := mem_familyHeads hapart hnone
    rw [hsplit, hheads] at hall
    have hlead := leading_component (P := fun l w =>
      ((offsets.find? l.dim.name).isSome → w.toInt = l.along q - l.along p) ∧
        (offsets.find? l.dim.name = none → w = 0)) hall ?_ ?_
    · obtain ⟨w, rest, he, hw, -⟩ := hlead
      exact ⟨w, rest, by rw [he], hw ((Access.find?_isSome_iff_mentions hd _).mpr hm)⟩
    · intro o ho w hw
      obtain ⟨hsome, hnone⟩ := hw
      cases hf : offsets.find? o.dim.name with
      | none => exact hnone hf
      | some _ =>
        have hw := hsome (by rw [hf]; rfl)
        rw [IterationInterval.along_eq_iff.mpr (hagree' o (hbefore o ho)), Int.sub_self] at hw
        exact Int64.toInt_inj.mp (hw.trans Int64.toInt_zero.symm)
    · rintro w ⟨hsome, -⟩ rfl
      have hw := hsome ((Access.find?_isSome_iff_mentions hd _).mpr hm)
      rw [Int64.toInt_zero] at hw
      exact hne (IterationInterval.along_eq_iff.mp (by omega))

end

theorem isReversed_of_neg (h : w.toInt < 0) : (uniform ((d, w) :: rest)).isReversed = true := by
  simpa [isReversed, Int64.lt_iff_toInt_lt] using h

theorem carrier?_of_pos (h : 0 < w.toInt) : (uniform ((d, w) :: rest)).carrier? = some d := by
  have hw : 0 < w := by simpa [Int64.lt_iff_toInt_lt] using h
  simp [carrier?, hw]

end Distance

/-- The dependence of every conflict is among those found. -/
theorem mem_dependences {a b : Cluster} {loops : List IterationInterval} {deps : List Distance}
    (h : dependences a b loops = .ok deps) {x y : Access} (hc : Conflict a b x y) :
    ∃ r, Distance.ofAccesses loops (a.dimensions ++ b.dimensions) x y = .ok r ∧
      ∀ dep, r = some dep → dep ∈ deps := by
  obtain ⟨found, hf, hr⟩ := Returns.of_bind (returns_ok h)
  rw [Returns.of_pure hr]
  obtain ⟨e, he, f, hf', hm⟩ := hc.mem_conflictingAccesses
  have hpair : (x, y) ∈ a.equations.flatMap fun e =>
      b.equations.flatMap fun f => Distance.conflictingAccesses e f :=
    List.mem_flatMap.mpr ⟨e, he, List.mem_flatMap.mpr ⟨f, hf', hm⟩⟩
  obtain ⟨r, hr, hof⟩ := exists_of_forall₂ (returns_mapM hf) hpair
  refine ⟨r, hof, ?_⟩
  rintro dep rfl
  exact List.mem_filterMap.mpr ⟨some dep, hr, rfl⟩

end LoopNest
