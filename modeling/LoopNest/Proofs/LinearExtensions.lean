import LoopNest.LinearExtension
import Mathlib.Data.List.Nodup

namespace LoopNest

def Precedes {α : Type} (l : List α) (a b : α) : Prop := [a, b].Sublist l

namespace Precedes

variable {α : Type} {l : List α} {a b : α}

theorem left_mem (h : Precedes l a b) : a ∈ l := h.subset List.mem_cons_self

theorem right_mem (h : Precedes l a b) : b ∈ l := h.subset (by simp)

theorem cons_iff {x : α} : Precedes (x :: l) a b ↔ a = x ∧ b ∈ l ∨ Precedes l a b := by
  unfold Precedes
  rw [List.cons_sublist_cons', List.singleton_sublist, or_comm]

theorem asymm (hl : l.Nodup) (h : Precedes l a b) : ¬Precedes l b a := by
  induction l with
  | nil => cases h
  | cons x l ih =>
    obtain ⟨hx, hl⟩ := List.nodup_cons.mp hl
    rw [cons_iff] at h ⊢
    rintro (⟨rfl, ha⟩ | hba)
    · rcases h with ⟨rfl, hb⟩ | hab
      · exact hx ha
      · exact hx hab.right_mem
    · rcases h with ⟨rfl, -⟩ | hab
      · exact hx hba.right_mem
      · exact ih hl hab hba

theorem ne (hl : l.Nodup) (h : Precedes l a b) : a ≠ b := by
  rintro rfl
  exact h.asymm hl h

theorem total (ha : a ∈ l) (hb : b ∈ l) (hne : a ≠ b) : Precedes l a b ∨ Precedes l b a := by
  induction l with
  | nil => cases ha
  | cons x l ih =>
    simp only [cons_iff]
    rcases List.mem_cons.mp ha with hax | ha <;> rcases List.mem_cons.mp hb with hbx | hb
    · exact absurd (hax.trans hbx.symm) hne
    · exact .inl (.inl ⟨hax, hb⟩)
    · exact .inr (.inl ⟨hbx, ha⟩)
    · exact (ih ha hb).imp .inr .inr

theorem trans {c : α} (hl : l.Nodup) (h : Precedes l a b) (h' : Precedes l b c) :
    Precedes l a c := by
  induction l with
  | nil => cases h
  | cons x l ih =>
    obtain ⟨hx, hl⟩ := List.nodup_cons.mp hl
    rw [cons_iff] at h h' ⊢
    rcases h' with ⟨rfl, hc⟩ | h'
    · rcases h with ⟨rfl, hb⟩ | h
      · exact absurd hb hx
      · exact absurd h.right_mem hx
    · rcases h with ⟨rfl, -⟩ | h
      · exact .inl ⟨rfl, h'.right_mem⟩
      · exact .inr (ih hl h h')

theorem filter {keep : α → Bool} (h : Precedes l a b) (ha : keep a) (hb : keep b) :
    Precedes (l.filter keep) a b := by
  have hf := List.Sublist.filter keep h
  rwa [List.filter_cons_of_pos ha, List.filter_cons_of_pos hb] at hf

theorem of_filter {keep : α → Bool} (h : Precedes (l.filter keep) a b) : Precedes l a b :=
  List.Sublist.trans h List.filter_sublist

theorem map {β : Type} (f : α → β) (h : Precedes l a b) : Precedes (l.map f) (f a) (f b) :=
  List.Sublist.map f h

theorem append {before after : List α} (ha : a ∈ before) (hb : b ∈ after) :
    Precedes (before ++ after) a b :=
  List.Sublist.append (List.singleton_sublist.mpr ha) (List.singleton_sublist.mpr hb)

theorem of_split {before after : List α} (ha : a ∈ before) :
    Precedes (before ++ b :: after) a b :=
  append ha List.mem_cons_self

theorem to_split {before after : List α} (hb : b ∈ after) :
    Precedes (before ++ a :: after) a b :=
  List.Sublist.trans (cons_iff.mpr (.inl ⟨rfl, hb⟩)) (List.sublist_append_right _ _)

theorem of_append_right {before after : List α} (hl : (before ++ after).Nodup)
    (h : Precedes (before ++ after) a b) (ha : a ∈ after) : Precedes after a b := by
  induction before with
  | nil => exact h
  | cons x before ih =>
    obtain ⟨hx, hl⟩ := List.nodup_cons.mp hl
    rcases cons_iff.mp h with ⟨rfl, -⟩ | h
    · exact absurd (List.mem_append_right _ ha) hx
    · exact ih hl h

theorem of_append_left {before after : List α} (hl : (before ++ after).Nodup)
    (h : Precedes (before ++ after) a b) (hb : b ∈ before) : Precedes before a b := by
  have hapart := (List.nodup_append.mp hl).2.2
  rcases List.mem_append.mp h.left_mem with ha | ha
  · refine (total ha hb (h.ne hl)).resolve_right fun hba => ?_
    exact h.asymm hl (List.Sublist.trans hba (List.sublist_append_left _ _))
  · exact absurd rfl (hapart b hb b (h.of_append_right hl ha).right_mem)

theorem concat_iff {x : α} : Precedes (l ++ [x]) a b ↔ Precedes l a b ∨ a ∈ l ∧ b = x := by
  constructor
  · intro h
    obtain ⟨left, right, hsplit, hleft, hright⟩ := List.sublist_append_iff.mp h
    cases hright with
    | cons _ hright =>
      rw [List.sublist_nil.mp hright, List.append_nil] at hsplit
      subst hsplit
      exact .inl hleft
    | cons_cons _ hright =>
      rw [List.sublist_nil.mp hright] at hsplit
      have hsplit : [a] ++ [b] = left ++ [x] := hsplit
      obtain ⟨rfl, hb⟩ := List.append_inj' hsplit rfl
      exact .inr ⟨List.singleton_sublist.mp hleft, (List.cons.inj hb).1⟩
  · rintro (h | ⟨ha, rfl⟩)
    · exact List.Sublist.trans h (List.sublist_append_left _ _)
    · exact append ha List.mem_cons_self

/-- What stands before an element is before it in the list. -/
theorem mem_before {before after : List α} (hl : (before ++ b :: after).Nodup)
    (h : Precedes (before ++ b :: after) a b) : a ∈ before := by
  rcases List.mem_append.mp h.left_mem with ha | ha
  · exact ha
  · rcases List.mem_cons.mp ha with rfl | ha
    · exact absurd rfl (h.ne hl)
    · exact absurd (to_split ha) (h.asymm hl)

theorem mem_after {before after : List α} (hl : (before ++ a :: after).Nodup)
    (h : Precedes (before ++ a :: after) a b) : b ∈ after := by
  rcases List.mem_append.mp h.right_mem with hb | hb
  · exact absurd (of_split hb) (h.asymm hl)
  · exact (List.mem_cons.mp hb).resolve_left (h.ne hl).symm

/-- Two arrangements in which the same elements stand before each other are the same. -/
theorem eq_of_perm {l' : List α} (hl : l.Nodup) (hp : l'.Perm l)
    (h : ∀ a b, Precedes l a b → Precedes l' a b) : l' = l := by
  have hnd' := hp.nodup_iff.mpr hl
  have hanti : ∀ a b, a ∈ l' → b ∈ l → Precedes l a b → Precedes l b a → a = b :=
    fun a b _ _ hab hba => absurd hba (hab.asymm hl)
  refine hp.eq_of_pairwise hanti (List.pairwise_iff_forall_sublist.mpr fun {a b} hab => ?_)
    (List.pairwise_iff_forall_sublist.mpr fun {a b} hab => hab)
  have hne : a ≠ b := Precedes.ne hnd' hab
  rcases total (hp.mem_iff.mp (left_mem hab)) (hp.mem_iff.mp (right_mem hab)) hne with h' | h'
  · exact h'
  · exact absurd (h _ _ h') (asymm hnd' hab)

theorem filter_append_left [DecidableEq α] {before after : List α}
    (hl : (before ++ after).Nodup) :
    (before ++ after).filter (· ∉ after) = before := by
  have hapart := (List.nodup_append.mp hl).2.2
  rw [List.filter_append, List.filter_eq_self.mpr fun a ha => ?_,
    List.filter_eq_nil_iff.mpr fun a ha => ?_, List.append_nil]
  · simpa using ha
  · simpa using fun hin => hapart a ha a hin rfl

/-- An arrangement in which nothing is moved behind the elements of a tail ends in this tail. -/
theorem exists_append [DecidableEq α] {before after : List α} (hl : (before ++ after).Nodup)
    (hp : l.Perm (before ++ after))
    (h : ∀ a b, b ∈ after → Precedes (before ++ after) a b → Precedes l a b) :
    ∃ before', before'.Perm before ∧ l = before' ++ after := by
  have hperm : (l.filter (· ∉ after)).Perm before := by
    have hf := hp.filter (· ∉ after)
    rwa [filter_append_left hl] at hf
  have hall := hperm.append_right after
  have hnd := hall.nodup_iff.mpr hl
  refine ⟨_, hperm, Precedes.eq_of_perm hnd (hp.trans hall.symm) fun a b hab => ?_⟩
  by_cases hb : b ∈ after
  · refine h a b hb ?_
    by_cases ha : a ∈ after
    · exact List.Sublist.trans (hab.of_append_right hnd ha) (List.sublist_append_right _ _)
    · have hin := (List.mem_append.mp hab.left_mem).resolve_right ha
      exact append (hperm.mem_iff.mp hin) hb
  · have ha : a ∉ after := fun ha => hb (hab.of_append_right hnd ha).right_mem
    have hf : Precedes ((l.filter (· ∉ after) ++ after).filter (· ∉ after)) a b :=
      hab.filter (by simpa using ha) (by simpa using hb)
    rw [filter_append_left hnd] at hf
    exact hf.of_filter

end Precedes

variable {α : Type} [DecidableEq α] {pending rest : List (α × List α)} {a : α} {order : List α}

omit [DecidableEq α] in
theorem takeSource_cases (h : takeSource pending = some (a, rest)) :
    ∃ before after, pending = before ++ (a, []) :: after ∧ rest = before ++ after ∧
      ∀ e ∈ before, e.2 ≠ [] := by
  induction pending generalizing a rest with
  | nil => cases h
  | cons e pending ih =>
    obtain ⟨b, ps⟩ := e
    cases ps with
    | nil =>
      cases h
      exact ⟨[], pending, rfl, rfl, by simp⟩
    | cons p ps =>
      rw [takeSource] at h
      · obtain ⟨⟨a', rest'⟩, hr, he⟩ := Option.map_eq_some_iff.mp h
        cases he
        obtain ⟨before, after, rfl, rfl, hb⟩ := ih hr
        exact ⟨(b, p :: ps) :: before, after, rfl, rfl, List.forall_mem_cons.mpr ⟨by simp, hb⟩⟩
      · simp

omit [DecidableEq α] in
theorem exists_takeSource (h : (a, []) ∈ pending) : ∃ r, takeSource pending = some r := by
  induction pending with
  | nil => cases h
  | cons e pending ih =>
    obtain ⟨b, ps⟩ := e
    cases ps with
    | nil => exact ⟨_, rfl⟩
    | cons p ps =>
      obtain ⟨r, hr⟩ := ih (by simpa using h)
      refine ⟨(r.1, (b, p :: ps) :: r.2), ?_⟩
      rw [takeSource, hr]
      · rfl
      · simp

def release (a : α) (rest : List (α × List α)) : List (α × List α) :=
  rest.map fun e => (e.1, e.2.filter (· ≠ a))

theorem release_fst (a : α) (rest : List (α × List α)) :
    (release a rest).map Prod.fst = rest.map Prod.fst := by
  simp [release, Function.comp_def]

theorem mem_release {e : α × List α} (h : e ∈ rest) :
    (e.1, e.2.filter (· ≠ a)) ∈ release a rest := List.mem_map_of_mem h

omit [DecidableEq α] in
theorem mem_of_mem_rest {before after : List (α × List α)} {d e : α × List α}
    (hd : d ∈ before ++ after) : d ∈ before ++ e :: after := by
  simp only [List.mem_append, List.mem_cons] at hd ⊢
  exact hd.imp id .inr

theorem takeSources_succ {n : Nat} : takeSources (n + 1) pending = some order ↔
    ∃ a rest out, takeSource pending = some (a, rest) ∧ takeSources n (release a rest) = some out ∧
      order = a :: out := by
  simp only [takeSources, release, Option.bind_eq_bind, Option.bind_eq_some_iff, Option.pure_def,
    Option.some.injEq, Prod.exists]
  grind

/-- The order has the elements of the entries, each after its predecessors. -/
theorem takeSources_order {n : Nat} (h : takeSources n pending = some order)
    (hlen : pending.length = n) :
    order.Perm (pending.map Prod.fst) ∧ ∀ e ∈ pending, ∀ p ∈ e.2, Precedes order p e.1 := by
  induction n generalizing pending order with
  | zero =>
    cases h
    rw [List.length_eq_zero_iff.mp hlen]
    simp
  | succ n ih =>
    obtain ⟨a, rest, out, hs, ht, rfl⟩ := takeSources_succ.mp h
    obtain ⟨before, after, rfl, rfl, -⟩ := takeSource_cases hs
    obtain ⟨hperm, hout⟩ := ih ht (by simp [release] at hlen ⊢; omega)
    rw [release_fst] at hperm
    refine ⟨?_, fun e he p hp => ?_⟩
    · simp only [List.map_append, List.map_cons] at hperm ⊢
      exact (hperm.cons a).trans List.perm_middle.symm
    · have hin : e ∈ before ++ after := by
        simp only [List.mem_append, List.mem_cons] at he ⊢
        rcases he with he | rfl | he
        · exact .inl he
        · cases hp
        · exact .inr he
      rw [Precedes.cons_iff]
      by_cases hpa : p = a
      · refine .inl ⟨hpa, ?_⟩
        rw [hperm.mem_iff]
        exact List.mem_map_of_mem hin
      · exact .inr (hout _ (mem_release hin) p (List.mem_filter.mpr ⟨hp, by simpa using hpa⟩))

/-- Without the element in the middle, what stood before and after it is left. -/
theorem filter_ne_middle {before after : List α} (hnd : (before ++ a :: after).Nodup) :
    (before ++ a :: after).filter (· ≠ a) = before ++ after := by
  have hfree := (List.nodup_cons.mp (List.nodup_middle.mp hnd)).1
  rw [List.filter_append, List.filter_cons_of_neg (by simp), ← List.filter_append]
  refine List.filter_eq_self.mpr fun x hx => ?_
  have hne : x ≠ a := fun he => hfree (he ▸ hx)
  simpa using hne

/-- The elements that are left when a source is taken are the others. -/
theorem release_map_fst {before after : List (α × List α)} {e : α × List α}
    (hnd : ((before ++ e :: after).map Prod.fst).Nodup) :
    (release e.1 (before ++ after)).map Prod.fst =
      ((before ++ e :: after).map Prod.fst).filter (· ≠ e.1) := by
  rw [List.map_append, List.map_cons] at hnd ⊢
  rw [release_fst, filter_ne_middle hnd, List.map_append]

/-- Entries that some order suits do not form a cycle. -/
theorem exists_takeSources {n : Nat} {suits : List α} (hnd : suits.Nodup)
    (hperm : suits.Perm (pending.map Prod.fst)) (hlen : pending.length = n)
    (hsuits : ∀ e ∈ pending, ∀ p ∈ e.2, Precedes suits p e.1) :
    ∃ order, takeSources n pending = some order := by
  induction n generalizing pending suits with
  | zero => exact ⟨[], rfl⟩
  | succ n ih =>
    -- the first element of the order that suits is a source, though another one may be taken
    obtain ⟨⟨a, rest⟩, hs⟩ : ∃ r, takeSource pending = some r := by
      cases suits with
      | nil =>
        have hzero := hperm.length_eq
        rw [List.length_map, hlen] at hzero
        cases hzero
      | cons s suits =>
        obtain ⟨⟨s', ps⟩, he, rfl⟩ := List.mem_map.mp (hperm.mem_iff.mp List.mem_cons_self)
        have hps : ps = [] := by
          refine List.eq_nil_iff_forall_not_mem.mpr fun p hp => ?_
          rcases Precedes.cons_iff.mp (hsuits _ he p hp) with ⟨-, hin⟩ | hin
          · exact (List.nodup_cons.mp hnd).1 hin
          · exact (List.nodup_cons.mp hnd).1 hin.right_mem
        rw [hps] at he
        exact exists_takeSource he
    obtain ⟨before, after, rfl, rfl, -⟩ := takeSource_cases hs
    have hrest : (suits.filter (· ≠ a)).Perm ((release a (before ++ after)).map Prod.fst) := by
      have hsource := release_map_fst (hperm.nodup_iff.mp hnd)
      exact hsource ▸ hperm.filter (· ≠ a)
    obtain ⟨out, ho⟩ : ∃ out, takeSources n (release a (before ++ after)) = some out := by
      refine ih (hnd.filter _) hrest (by simp [release] at hlen ⊢; omega) fun e he p hp => ?_
      obtain ⟨d, hd, rfl⟩ := List.mem_map.mp he
      obtain ⟨hp, hpa⟩ := List.mem_filter.mp hp
      have hda : d.1 ≠ a := by
        have hin := hrest.mem_iff.mpr (by rw [release_fst]; exact List.mem_map_of_mem hd)
        simpa using (List.mem_filter.mp hin).2
      exact (hsuits d (mem_of_mem_rest hd) p hp).filter hpa (by simpa using hda)
    exact ⟨_, takeSources_succ.mpr ⟨a, _, out, hs, ho, rfl⟩⟩

omit [DecidableEq α] in
theorem exists_first {group : α → Prop} {l : List α} (h : ∃ x ∈ l, group x) :
    ∃ before x after, l = before ++ x :: after ∧ group x ∧ ∀ y ∈ before, ¬group y := by
  induction l with
  | nil => simp at h
  | cons x l ih =>
    by_cases hx : group x
    · exact ⟨[], x, l, rfl, hx, by simp⟩
    · obtain ⟨before, y, after, rfl, hy, hfree⟩ := ih (by simpa [hx] using h)
      exact ⟨x :: before, y, after, rfl, hy, List.forall_mem_cons.mpr ⟨hx, hfree⟩⟩

omit [DecidableEq α] in
/-- A source that is taken does not stand behind elements that wait only for each other: they would
be passed over as a whole, but the first of them to come waits for nothing. -/
theorem not_behind_group {before after : List (α × List α)} (group : α → Prop)
    (hbusy : ∀ e ∈ before, e.2 ≠ []) (hnd : ((before ++ (a, []) :: after).map Prod.fst).Nodup)
    (hperm : order.Perm ((before ++ (a, []) :: after).map Prod.fst))
    (horder : ∀ e ∈ before ++ (a, []) :: after, ∀ p ∈ e.2, Precedes order p e.1)
    (hclosed : ∀ e ∈ before ++ (a, []) :: after, group e.1 → ∀ p ∈ e.2, group p)
    (hup : ∀ e ∈ before ++ (a, []) :: after, group e.1 →
      Precedes ((before ++ (a, []) :: after).map Prod.fst) e.1 a) :
    ∀ e ∈ before ++ (a, []) :: after, ¬group e.1 := by
  intro e he hg
  have hbefore : ∀ e ∈ before ++ (a, []) :: after, group e.1 → e ∈ before := by
    intro e he hg
    have hp := hup e he hg
    simp only [List.map_append, List.map_cons] at hp hnd
    rcases List.mem_append.mp he with he | he
    · exact he
    · rcases List.mem_cons.mp he with rfl | he
      · exact absurd rfl (hp.ne hnd)
      · exact absurd hp (Precedes.asymm hnd (Precedes.to_split (List.mem_map_of_mem he)))
  have hmem : e.1 ∈ order := hperm.mem_iff.mpr (List.mem_map_of_mem he)
  obtain ⟨outer, s, inner, rfl, hs, hfree⟩ := exists_first ⟨e.1, hmem, hg⟩
  have hsmem : s ∈ (before ++ (a, []) :: after).map Prod.fst := hperm.mem_iff.mp (by simp)
  obtain ⟨d, hd, rfl⟩ := List.mem_map.mp hsmem
  obtain ⟨p, hp⟩ := List.exists_mem_of_ne_nil _ (hbusy d (hbefore d hd hs))
  exact hfree p ((horder d hd p hp).mem_before (hperm.nodup_iff.mpr hnd)) (hclosed d hd hs p hp)

/-- Elements that wait only for each other, all further up than some element, come before it. -/
theorem takeSources_precedes {n : Nat} {group : α → Prop} {y : α}
    (h : takeSources n pending = some order) (hlen : pending.length = n)
    (hnd : (pending.map Prod.fst).Nodup)
    (hclosed : ∀ e ∈ pending, group e.1 → ∀ p ∈ e.2, group p)
    (hup : ∀ e ∈ pending, group e.1 → Precedes (pending.map Prod.fst) e.1 y) :
    ∀ e ∈ pending, group e.1 → Precedes order e.1 y := by
  induction n generalizing pending order with
  | zero =>
    rw [List.length_eq_zero_iff.mp hlen]
    simp
  | succ n ih =>
    obtain ⟨hperm, horder⟩ := takeSources_order h hlen
    obtain ⟨a, rest, out, hs, ht, rfl⟩ := takeSources_succ.mp h
    obtain ⟨before, after, rfl, rfl, hbusy⟩ := takeSource_cases hs
    intro e he hg
    have hya : y ≠ a := by
      rintro rfl
      exact not_behind_group group hbusy hnd hperm horder hclosed hup e he hg
    rw [Precedes.cons_iff]
    by_cases hea : e.1 = a
    · have hmem : y ∈ a :: out := hperm.mem_iff.mpr (hup e he hg).right_mem
      exact .inl ⟨hea, (List.mem_cons.mp hmem).resolve_left hya⟩
    · have hein : e ∈ before ++ after := by
        simp only [List.mem_append, List.mem_cons] at he ⊢
        rcases he with he | rfl | he
        · exact .inl he
        · exact absurd rfl hea
        · exact .inr he
      have hrest := (release_map_fst hnd).symm
      refine .inr (ih ht (by simp [release] at hlen ⊢; omega) (hrest ▸ hnd.filter _) ?_ ?_
        (e.1, e.2.filter (· ≠ a)) (mem_release hein) hg)
      · intro e he hg p hp
        obtain ⟨d, hd, rfl⟩ := List.mem_map.mp he
        exact hclosed d (mem_of_mem_rest hd) hg p (List.mem_filter.mp hp).1
      · intro e he hg
        obtain ⟨d, hd, rfl⟩ := List.mem_map.mp he
        have hda : d.1 ≠ a := by
          have hin : d.1 ∈ (release a (before ++ after)).map Prod.fst := by
            rw [release_fst]
            exact List.mem_map_of_mem hd
          rw [← hrest] at hin
          simpa using (List.mem_filter.mp hin).2
        rw [← hrest]
        exact (hup d (mem_of_mem_rest hd) hg).filter (by simpa using hda) (by simpa using hya)

variable {elements : List α} {pairs : List (α × α)}

omit [DecidableEq α] in
theorem map_entries [DecidableEq α] (elements : List α) (pairs : List (α × α)) :
    (elements.map fun a => (a, predecessors pairs a)).map Prod.fst = elements := by
  simp [Function.comp_def]

theorem mem_predecessors {p : α × α} : p.1 ∈ predecessors pairs p.2 ↔ p ∈ pairs := by
  simp only [predecessors, List.mem_map, List.mem_filter, decide_eq_true_eq]
  exact ⟨fun ⟨q, ⟨hq, h2⟩, h1⟩ => (Prod.ext h1 h2 : q = p) ▸ hq, fun h => ⟨p, ⟨h, rfl⟩, rfl⟩⟩

theorem linearExtension?_perm (h : linearExtension? elements pairs = some order) :
    order.Perm elements := by
  have hperm := (takeSources_order h (by simp)).1
  rwa [map_entries] at hperm

/-- The first element of a pair stands before the second. -/
theorem linearExtension?_precedes (h : linearExtension? elements pairs = some order)
    {p : α × α} (hp : p ∈ pairs) (hin : p.2 ∈ elements) : Precedes order p.1 p.2 :=
  (takeSources_order h (by simp)).2 _ (List.mem_map_of_mem hin) _ (mem_predecessors.mpr hp)

/-- Pairs that some order suits do not form a cycle. -/
theorem exists_linearExtension? {suits : List α} (hnd : suits.Nodup) (hperm : suits.Perm elements)
    (hsuits : ∀ p ∈ pairs, p.2 ∈ elements → Precedes suits p.1 p.2) :
    ∃ order, linearExtension? elements pairs = some order := by
  refine exists_takeSources hnd (by rwa [map_entries]) (by simp) fun e he p hp => ?_
  obtain ⟨b, hb, rfl⟩ := List.mem_map.mp he
  exact hsuits (p, b) (mem_predecessors.mp hp) hb

/-- If everything that has to come up to an element is further up than another one, the element
comes before the other one. -/
theorem linearExtension?_keeps (h : linearExtension? elements pairs = some order)
    (hnd : elements.Nodup) {group : α → Prop} {x y : α}
    (hclosed : ∀ p ∈ pairs, p.2 ∈ elements → group p.2 → group p.1)
    (hup : ∀ a ∈ elements, group a → Precedes elements a y) (hx : x ∈ elements) (hg : group x) :
    Precedes order x y := by
  refine takeSources_precedes h (by simp) (by rwa [map_entries]) ?_ ?_ _
    (List.mem_map_of_mem hx) hg
  · intro e he hg p hp
    obtain ⟨b, hb, rfl⟩ := List.mem_map.mp he
    exact hclosed (p, b) (mem_predecessors.mp hp) hb hg
  · intro e he hg
    obtain ⟨b, hb, rfl⟩ := List.mem_map.mp he
    rw [map_entries]
    exact hup b hb hg

/-- A list that already suits the pairs, leading elements left aside, keeps its order. -/
theorem linearExtension?_again {leading : List α} {suits : List α} (hnd : suits.Nodup)
    (hlead : leading.Nodup) (hsub : ∀ a ∈ leading, a ∈ suits)
    (hsuits : ∀ p ∈ pairs, p.2 ∈ suits → Precedes suits p.1 p.2) :
    ∃ order, linearExtension? (leading ++ suits.filter (· ∉ leading)) pairs = some order ∧
      order.filter (· ∉ leading) = suits.filter (· ∉ leading) := by
  have hperm : suits.Perm (leading ++ suits.filter (· ∉ leading)) := by
    have hsplit := List.filter_append_perm (· ∈ leading) suits
    refine hsplit.symm.trans (List.Perm.append ?_ (.of_eq (by simp)))
    refine (List.perm_ext_iff_of_nodup (hnd.filter _) hlead).mpr fun a => ?_
    simp only [List.mem_filter, decide_eq_true_eq]
    exact ⟨And.right, fun h => ⟨hsub a h, h⟩⟩
  have hmem : ∀ a, a ∈ leading ++ suits.filter (· ∉ leading) ↔ a ∈ suits :=
    fun a => hperm.mem_iff.symm
  obtain ⟨order, ho⟩ := exists_linearExtension? hnd hperm fun p hp hin =>
    hsuits p hp ((hmem _).mp hin)
  have hnd' := hperm.nodup_iff.mp hnd
  have hpo := linearExtension?_perm ho
  refine ⟨order, ho, Precedes.eq_of_perm (hnd.filter _) ?_ fun x y hxy => ?_⟩
  · exact (hpo.trans hperm.symm).filter _
  · have hx : x ∈ suits ∧ x ∉ leading := by simpa using hxy.left_mem
    have hy : y ∈ suits ∧ y ∉ leading := by simpa using hxy.right_mem
    have hin : Precedes suits x y := hxy.of_filter
    refine Precedes.filter ?_ (by simpa using hx.2) (by simpa using hy.2)
    -- the group: whatever stands at or before `x`
    have hself : x = x ∨ Precedes suits x x := .inl rfl
    refine @linearExtension?_keeps _ _ _ _ _ ho hnd' (fun a => a = x ∨ Precedes suits a x) _ _
      ?_ ?_ ((hmem x).mpr hx.1) hself
    · rintro p hp hin (h | h)
      · exact .inr (h ▸ hsuits p hp ((hmem _).mp hin))
      · exact .inr ((hsuits p hp ((hmem _).mp hin)).trans hnd h)
    · intro a ha hg
      have hay : Precedes suits a y := by
        rcases hg with rfl | h
        · exact hin
        · exact h.trans hnd hin
      by_cases hl : a ∈ leading
      · exact Precedes.append hl hxy.right_mem
      · exact List.Sublist.trans (hay.filter (by simpa using hl) (by simpa using hy.2))
          (List.sublist_append_right _ _)

end LoopNest
