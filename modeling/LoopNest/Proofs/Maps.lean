import LoopNest.SortedMap
import LoopNest.SortedSet

namespace LoopNest

theorem compare_beq_eq [DecidableEq κ] [Ord κ] [Std.TransOrd κ] [Std.LawfulEqOrd κ] (k k' : κ) :
    (compare k k' == .eq) = decide (k = k') := by
  rw [Bool.eq_iff_iff]
  simp [Std.LawfulEqCmp.compare_eq_iff_eq]

namespace SortedMap

variable {κ ν : Type} [DecidableEq κ] [Ord κ] [Std.TransOrd κ] [Std.LawfulEqOrd κ]

theorem find?_entries (m : SortedMap κ ν) (k : κ) :
    m.find? k = (m.entries.find? fun e => k = e.1).map Prod.snd := by
  simp only [find?, compare_beq_eq]

omit [DecidableEq κ] [Std.TransOrd κ] [Std.LawfulEqOrd κ] in
@[simp] theorem find?_empty (k : κ) : (empty : SortedMap κ ν).find? k = none := rfl

theorem find?_insert (m : SortedMap κ ν) (k : κ) (v : ν) (k' : κ) :
    (m.insert k v).find? k' = if k' = k then some v else m.find? k' := by
  simp only [find?_entries, insert]
  generalize m.entries = l
  induction l with
  | nil => by_cases h : k' = k <;> simp [insertEntry, h]
  | cons e l ih =>
    rw [insertEntry]
    cases hc : compare k e.1 with
    | lt => by_cases h : k' = k <;> simp [List.find?_cons, h]
    | eq =>
      have he : k = e.1 := Std.LawfulEqCmp.eq_of_compare hc
      by_cases h : k' = k <;> simp [← he, h]
    | gt =>
      have he : k ≠ e.1 := by
        intro he
        simp [he] at hc
      by_cases h : k' = e.1
      · have hk : k' ≠ k := fun hk => he (hk.symm.trans h)
        simp [h, Ne.symm he]
      · simpa [List.find?_cons, h] using ih

theorem find?_insert_self (m : SortedMap κ ν) (k : κ) (v : ν) :
    (m.insert k v).find? k = some v := by
  simp [find?_insert]

theorem find?_filterKeys (m : SortedMap κ ν) (keep : κ → Bool) (k : κ) :
    (m.filterKeys keep).find? k = if keep k then m.find? k else none := by
  simp only [find?_entries, filterKeys, List.find?_filter]
  by_cases h : keep k = true
  · have hp : (fun e : κ × ν => decide (keep e.1 = true ∧ k = e.1)) =
        fun e => decide (k = e.1) := by
      funext e
      by_cases he : k = e.1 <;> simp [he]
      exact he ▸ h
    simp_all
  · have hp : ∀ a b, (a, b) ∈ m.entries → keep a = true → ¬k = a := by
      rintro a _ - hk rfl
      exact h hk
    simpa [h] using hp

theorem find?_erase (m : SortedMap κ ν) (k k' : κ) :
    (m.erase k).find? k' = if k' = k then none else m.find? k' := by
  have he : m.erase k = m.filterKeys fun x => compare k x != .eq := rfl
  rw [he, find?_filterKeys]
  by_cases h : k' = k
  · simp [h]
  · simp [bne, compare_beq_eq, h, Ne.symm h]

theorem mem_entries_of_find? {m : SortedMap κ ν} {k : κ} {v : ν} (h : m.find? k = some v) :
    (k, v) ∈ m.entries := by
  rw [find?_entries] at h
  obtain ⟨e, he, rfl⟩ := Option.map_eq_some_iff.mp h
  have hk : k = e.1 := by simpa using List.find?_some he
  rw [hk]
  exact List.mem_of_find?_eq_some he

/-- The keys of a map are distinct, so an entry is what its key finds. -/
theorem find?_of_mem {m : SortedMap κ ν} {e : κ × ν} (h : e ∈ m.entries) :
    m.find? e.1 = some e.2 := by
  rw [find?_entries]
  have hs := m.sorted
  generalize m.entries = l at h hs
  induction l with
  | nil => cases h
  | cons a l ih =>
    obtain ⟨ha, hl⟩ := List.pairwise_cons.mp hs
    rcases List.mem_cons.mp h with rfl | h
    · simp
    · have hne : e.1 ≠ a.1 := by
        intro he
        have hlt := ha e h
        simp [he] at hlt
      simpa [List.find?_cons, hne] using ih h hl

theorem find?_eq_some_iff {m : SortedMap κ ν} {k : κ} {v : ν} :
    m.find? k = some v ↔ (k, v) ∈ m.entries :=
  ⟨mem_entries_of_find?, fun h => find?_of_mem h⟩

theorem mem_keys_iff {m : SortedMap κ ν} {k : κ} : k ∈ m.keys ↔ (m.find? k).isSome := by
  constructor
  · intro h
    obtain ⟨e, he, rfl⟩ := List.mem_map.mp h
    simp [find?_of_mem he]
  · intro h
    obtain ⟨v, hv⟩ := Option.isSome_iff_exists.mp h
    exact List.mem_map.mpr ⟨(k, v), mem_entries_of_find? hv, rfl⟩

omit [DecidableEq κ] [Std.TransOrd κ] in
theorem keys_nodup (m : SortedMap κ ν) : (m.entries.map Prod.fst).Nodup := by
  refine List.pairwise_map.mpr (m.sorted.imp ?_)
  intro a b hlt he
  simp [he] at hlt

/-- Inserting entries with distinct keys: such a key finds its entry, any other what was there. -/
theorem find?_foldl_insert {l : List (κ × ν)} (hl : (l.map Prod.fst).Nodup) (g : κ × ν → ν)
    (m : SortedMap κ ν) (k : κ) :
    (l.foldl (fun m e => m.insert e.1 (g e)) m).find? k =
      ((l.find? fun e => k = e.1).map g).or (m.find? k) := by
  induction l generalizing m with
  | nil => simp
  | cons e l ih =>
    rw [List.map_cons, List.nodup_cons] at hl
    rw [List.foldl_cons, ih hl.2, find?_insert, List.find?_cons]
    by_cases hk : k = e.1
    · have hnone : (l.find? fun e' => k = e'.1) = none := by
        refine List.find?_eq_none.mpr fun e' he' heq => hl.1 (List.mem_map.mpr ⟨e', he', ?_⟩)
        rw [← hk]
        exact (of_decide_eq_true heq).symm
      simp [hk, hk ▸ hnone]
    · simp [hk]

omit [DecidableEq κ] [Std.LawfulEqOrd κ] in
theorem mem_of_mem_ofList {l : List (κ × ν)} {e : κ × ν} (h : e ∈ (ofList l).entries) : e ∈ l := by
  have hfold : ∀ (l : List (κ × ν)) (m : SortedMap κ ν),
      e ∈ (l.foldl (fun m e => m.insert e.1 e.2) m).entries → e ∈ l ∨ e ∈ m.entries := by
    intro l
    induction l with
    | nil => exact fun m h => .inr h
    | cons a l ih =>
      intro m h
      rcases ih _ h with h | h
      · exact .inl (List.mem_cons_of_mem _ h)
      · rcases mem_insertEntry h with rfl | h
        · exact .inl List.mem_cons_self
        · exact .inr h
  exact (hfold l .empty h).resolve_right (by simp [empty])

/-- A key that has one value only among the entries finds it. -/
theorem find?_ofList {l : List (κ × ν)} {k : κ} {v : ν} (hin : (k, v) ∈ l)
    (hsame : ∀ w, (k, w) ∈ l → w = v) : (ofList l).find? k = some v := by
  have hfold : ∀ (l : List (κ × ν)) (m : SortedMap κ ν), (∀ w, (k, w) ∈ l → w = v) →
      ((k, v) ∈ l ∨ m.find? k = some v) →
        (l.foldl (fun m e => m.insert e.1 e.2) m).find? k = some v := by
    intro l
    induction l with
    | nil => exact fun m _ h => h.resolve_left List.not_mem_nil
    | cons e l ih =>
      intro m hsame h
      refine ih _ (fun w hw => hsame w (List.mem_cons_of_mem _ hw)) ?_
      rw [find?_insert]
      by_cases hk : k = e.1
      · rw [if_pos hk, hsame e.2 (hk ▸ List.mem_cons_self)]
        exact .inr rfl
      · rw [if_neg hk]
        refine h.imp_left fun hin => (List.mem_cons.mp hin).resolve_left fun he => hk ?_
        exact congrArg Prod.fst he
  exact hfold l .empty hsame (.inl hin)

omit [DecidableEq κ] [Std.LawfulEqOrd κ] in
theorem eq_of_perm {m n : SortedMap κ ν} (h : m.entries.Perm n.entries) : m = n := by
  have he : m.entries = n.entries := by
    refine h.eq_of_pairwise ?_ m.sorted n.sorted
    intro a b _ _ hab hba
    exact absurd (Std.OrientedCmp.gt_of_lt hba) (by simp [hab])
  obtain ⟨l, hl⟩ := m
  obtain ⟨l', hl'⟩ := n
  cases he
  rfl

/-- A map is what its keys find. -/
theorem ext_find? {m n : SortedMap κ ν} (h : ∀ k, m.find? k = n.find? k) : m = n := by
  have hnodup : ∀ m : SortedMap κ ν, m.entries.Nodup := fun m => m.sorted.imp fun hlt he => by
    simp [he] at hlt
  refine eq_of_perm ((List.perm_ext_iff_of_nodup (hnodup m) (hnodup n)).mpr ?_)
  rintro ⟨k, v⟩
  rw [← find?_eq_some_iff, ← find?_eq_some_iff, h]

/-- Inserting makes up for erasing at the same key. -/
theorem insert_erase (m : SortedMap κ ν) (k : κ) (v : ν) :
    (m.erase k).insert k v = m.insert k v := by
  refine ext_find? fun k' => ?_
  simp only [find?_insert, find?_erase]
  split <;> rfl

/-- Collecting the entries of a map gives the map back. -/
theorem ofList_entries (m : SortedMap κ ν) : ofList m.entries = m := by
  refine ext_find? fun k => ?_
  rw [ofList, find?_foldl_insert m.keys_nodup (fun e => e.2), find?_entries m]
  simp

end SortedMap

namespace SortedSet

theorem mem_filter [Ord α] {s : SortedSet α} {keep : α → Bool} {a : α} :
    a ∈ (s.filter keep).toList ↔ a ∈ s.toList ∧ keep a = true :=
  List.mem_filter

variable {α : Type} [DecidableEq α] [Ord α] [Std.TransOrd α] [Std.LawfulEqOrd α]

theorem contains_iff {s : SortedSet α} {a : α} : s.contains a = true ↔ a ∈ s.toList := by
  simp [contains, compare_beq_eq]

omit [DecidableEq α] in
theorem mem_insert {s : SortedSet α} {a b : α} :
    b ∈ (s.insert a).toList ↔ b = a ∨ b ∈ s.toList := by
  refine ⟨mem_insertMember, ?_⟩
  simp only [insert]
  generalize s.toList = l
  induction l with
  | nil => simp [insertMember]
  | cons c l ih =>
    rw [insertMember]
    cases hc : compare a c with
    | lt => simp
    | eq =>
      have he : a = c := Std.LawfulEqCmp.eq_of_compare hc
      simp [he]
    | gt =>
      intro h
      simp only [List.mem_cons] at h ⊢
      rcases h with h | h | h
      · exact .inr (ih (.inl h))
      · exact .inl h
      · exact .inr (ih (.inr h))

omit [DecidableEq α] in
theorem mem_insertMany {s : SortedSet α} {l : List α} {b : α} :
    b ∈ (s.insertMany l).toList ↔ b ∈ l ∨ b ∈ s.toList := by
  induction l generalizing s with
  | nil => simp [insertMany]
  | cons a l ih =>
    have hs : s.insertMany (a :: l) = (s.insert a).insertMany l := rfl
    rw [hs, ih, mem_insert]
    simp only [List.mem_cons]
    grind

omit [DecidableEq α] in
theorem mem_ofList {l : List α} {b : α} : b ∈ (ofList l).toList ↔ b ∈ l := by
  simp [ofList, mem_insertMany, empty]

omit [DecidableEq α] in
/-- A set is its members. -/
theorem ext_mem {s t : SortedSet α} (h : ∀ a, a ∈ s.toList ↔ a ∈ t.toList) : s = t := by
  have hnodup : ∀ s : SortedSet α, s.toList.Nodup := fun s => s.sorted.imp fun hlt he => by
    simp [he] at hlt
  have he : s.toList = t.toList := by
    refine ((List.perm_ext_iff_of_nodup (hnodup s) (hnodup t)).mpr h).eq_of_pairwise ?_
      s.sorted t.sorted
    intro a b _ _ hab hba
    exact absurd (Std.OrientedCmp.gt_of_lt hba) (by simp [hab])
  obtain ⟨l, hl⟩ := s
  obtain ⟨l', hl'⟩ := t
  cases he
  rfl

omit [DecidableEq α] in
theorem ofList_toList (s : SortedSet α) : ofList s.toList = s :=
  ext_mem fun _ => mem_ofList

theorem mem_erase {s : SortedSet α} {a b : α} :
    b ∈ (s.erase a).toList ↔ b ∈ s.toList ∧ b ≠ a := by
  rw [erase, mem_filter, bne, compare_beq_eq, ne_comm]
  simp

theorem mem_inter {s t : SortedSet α} {a : α} :
    a ∈ (s.inter t).toList ↔ a ∈ s.toList ∧ a ∈ t.toList := by
  simp [inter, mem_filter, contains_iff]

theorem disjoint_iff {s t : SortedSet α} :
    s.disjoint t = true ↔ ∀ a ∈ s.toList, a ∉ t.toList := by
  simp only [disjoint, List.all_eq_true, Bool.not_eq_true', ← Bool.not_eq_true, contains_iff]

end SortedSet
end LoopNest
