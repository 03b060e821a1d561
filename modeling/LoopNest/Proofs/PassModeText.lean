import LoopNest.PassMode
import LoopNest.Proofs.Returns

namespace LoopNest

def Trimmed (cs : List Char) : Prop :=
  (∀ c ∈ cs.head?, isBlank c = false) ∧ ∀ c ∈ cs.getLast?, isBlank c = false

theorem dropWhile_blank_head (cs : List Char) :
    ∀ c ∈ (cs.dropWhile isBlank).head?, isBlank c = false := by
  intro c hc
  have h := List.head?_dropWhile_not isBlank cs
  rw [Option.mem_def.mp hc] at h
  exact h

theorem dropWhile_blank_eq_self {cs : List Char} (h : ∀ c ∈ cs.head?, isBlank c = false) :
    cs.dropWhile isBlank = cs := by
  cases cs with
  | nil => rfl
  | cons c cs => rw [List.dropWhile_cons_of_neg (by simp [h c rfl])]

theorem trimmed_trimChars (cs : List Char) : Trimmed (trimChars cs) := by
  refine ⟨fun c hc => ?_, fun c hc => ?_⟩
  · -- what trimming the end leaves still begins where the list did
    rw [trimChars, List.head?_reverse] at hc
    obtain ⟨cut, hcut⟩ := List.dropWhile_suffix (l := (cs.dropWhile isBlank).reverse) isBlank
    have hlast : (cs.dropWhile isBlank).reverse.getLast? = some c := by
      rw [← hcut, List.getLast?_append, Option.mem_def.mp hc]
      rfl
    rw [List.getLast?_reverse] at hlast
    exact dropWhile_blank_head cs c hlast
  · rw [trimChars, List.getLast?_reverse] at hc
    exact dropWhile_blank_head _ c hc

theorem trimChars_eq_self {cs : List Char} (h : Trimmed cs) : trimChars cs = cs := by
  have hback : ∀ c ∈ cs.reverse.head?, isBlank c = false := by
    rw [List.head?_reverse]
    exact h.2
  rw [trimChars, dropWhile_blank_eq_self h.1, dropWhile_blank_eq_self hback, List.reverse_reverse]

theorem trim_eq_self {s : String} (h : Trimmed s.toList) : trim s = s := by
  rw [trim, trimChars_eq_self h, String.ofList_toList]

theorem trimmed_trim (s : String) : Trimmed (trim s).toList := by
  rw [trim, String.toList_ofList]
  exact trimmed_trimChars _

theorem mem_of_mem_trimChars {c : Char} {cs : List Char} (h : c ∈ trimChars cs) : c ∈ cs := by
  rw [trimChars, List.mem_reverse] at h
  have h := (List.dropWhile_suffix isBlank).subset h
  rw [List.mem_reverse] at h
  exact (List.dropWhile_suffix isBlank).subset h

/-- Pieces without blanks at their ends, put together, have none at the ends. -/
theorem trimmed_intercalate {sep : List Char} {pieces : List (List Char)}
    (h : ∀ p ∈ pieces, p ≠ [] ∧ Trimmed p) : Trimmed (sep.intercalate pieces) := by
  induction pieces with
  | nil => simp [Trimmed]
  | cons p pieces ih =>
    obtain ⟨⟨hp, hpt⟩, hrest⟩ := List.forall_mem_cons.mp h
    cases pieces with
    | nil => simpa using hpt
    | cons q pieces =>
      have hne : sep.intercalate (q :: pieces) ≠ [] := by
        have hq := (hrest q List.mem_cons_self).1
        cases pieces <;> simp [hq]
      rw [List.intercalate_cons_cons]
      refine ⟨?_, ?_⟩
      · rw [List.append_assoc, List.head?_append_of_ne_nil _ hp]
        exact hpt.1
      · rw [List.getLast?_append_of_ne_nil _ hne]
        exact (ih hrest).2

theorem splitChars_eq_splitOn (sep : Char) (cs : List Char) :
    splitChars sep cs = cs.splitOn sep := by
  induction cs with
  | nil => rfl
  | cons c cs ih =>
    rw [splitChars, List.splitOn_cons_eq_if_modifyHead, ih]
    obtain ⟨piece, pieces, hs⟩ := List.exists_cons_of_ne_nil (List.splitOn_ne_nil sep cs)
    simp [hs]

theorem not_mem_of_mem_splitChars {sep : Char} {cs piece : List Char}
    (h : piece ∈ splitChars sep cs) : sep ∉ piece := by
  induction cs generalizing piece with
  | nil =>
    rw [List.mem_singleton.mp h]
    exact List.not_mem_nil
  | cons c cs ih =>
    rw [splitChars] at h
    split at h
    · rcases List.mem_cons.mp h with rfl | h
      · exact List.not_mem_nil
      · exact ih h
    · rename_i hc
      split at h
      · rename_i first pieces hs
        rw [hs] at ih
        rcases List.mem_cons.mp h with rfl | h
        · rw [List.mem_cons, not_or]
          exact ⟨Ne.symm hc, ih List.mem_cons_self⟩
        · exact ih (List.mem_cons_of_mem _ h)
      · rw [List.mem_singleton.mp h, List.mem_singleton]
        exact Ne.symm hc

/-- Names put together with separators, none of which they contain, are cut apart again. -/
theorem splitAt_intercalate {names : List String} (hne : names ≠ [])
    (hfree : ∀ n ∈ names, ',' ∉ n.toList) : splitAt ',' (",".intercalate names) = names := by
  have hpieces : ∀ p ∈ names.map String.toList, ',' ∉ p := by
    simpa using hfree
  rw [splitAt, splitChars_eq_splitOn, String.toList_intercalate]
  have hsep : (",".toList : List Char) = [','] := rfl
  rw [hsep, List.splitOn_intercalate ',' hpieces (by simpa using hne)]
  simp [Function.comp_def]

/-- A text of one piece is that piece. -/
theorem eq_of_splitAt_singleton {s piece : String} (h : splitAt ',' s = [piece]) : s = piece := by
  have hchars : splitChars ',' s.toList = [piece.toList] := by
    rw [splitAt] at h
    obtain ⟨cs, hcs, hp⟩ := List.map_eq_singleton_iff.mp h
    rw [hcs, ← hp, String.toList_ofList]
  rw [splitChars_eq_splitOn] at hchars
  have hjoin : [','].intercalate (s.toList.splitOn ',') = s.toList := List.intercalate_splitOn ','
  rw [hchars] at hjoin
  exact String.toList_inj.mp (by simpa using hjoin.symm)

namespace PassMode

structure Names (names : List String) : Prop where
  trimmed : ∀ n ∈ names, Trimmed n.toList
  free : ∀ n ∈ names, ',' ∉ n.toList
  named : "" ∉ names
  nonempty : names ≠ []
  custom : ∀ word ∈ ["noop", "advanced"], names ≠ [word]

theorem parse_cases {s : String} {mode : PassMode} (h : parse s = .ok mode) :
    mode = noop ∨ mode = advanced ∨ ∃ names, mode = custom names ∧ Names names := by
  unfold parse at h
  dsimp only at h
  split at h
  · cases h
  split at h
  · cases h
    exact .inl rfl
  rename_i hnoop
  split at h
  · cases h
    exact .inr (.inl rfl)
  rename_i hadvanced
  split at h
  · cases h
  rename_i hnamed
  cases h
  refine .inr (.inr ⟨_, rfl, ?_, ?_, hnamed, ?_, ?_⟩)
  · intro n hn
    obtain ⟨piece, -, rfl⟩ := List.mem_map.mp hn
    exact trimmed_trim piece
  · intro n hn hc
    obtain ⟨piece, hp, rfl⟩ := List.mem_map.mp hn
    obtain ⟨cs, hcs, rfl⟩ := List.mem_map.mp hp
    rw [trim, String.toList_ofList, String.toList_ofList] at hc
    exact not_mem_of_mem_splitChars hcs (mem_of_mem_trimChars hc)
  · rw [Ne, List.map_eq_nil_iff, splitAt, List.map_eq_nil_iff, splitChars_eq_splitOn]
    exact List.splitOn_ne_nil _ _
  · -- a single name is the whole text, which was trimmed already
    intro word hword hone
    obtain ⟨piece, hp, hpw⟩ := List.map_eq_singleton_iff.mp hone
    have hlist := eq_of_splitAt_singleton hp
    rw [← hlist, trim_eq_self (trimmed_trim s)] at hpw
    simp only [List.mem_cons, List.not_mem_nil, or_false] at hword
    rcases hword with rfl | rfl
    · exact hnoop hpw
    · exact hadvanced hpw

theorem parse_custom {names : List String} (h : Names names) :
    parse (custom names).text = .ok (custom names) := by
  have hcut := splitAt_intercalate h.nonempty h.free
  have htrim : trim (",".intercalate names) = ",".intercalate names := by
    refine trim_eq_self ?_
    rw [String.toList_intercalate]
    refine trimmed_intercalate fun p hp => ?_
    obtain ⟨n, hn, rfl⟩ := List.mem_map.mp hp
    refine ⟨fun he => h.named ?_, h.trimmed n hn⟩
    rwa [← String.toList_eq_nil_iff.mp he]
  have hnames : (splitAt ',' (",".intercalate names)).map trim = names := by
    rw [hcut]
    exact (List.map_congr_left fun n hn => trim_eq_self (h.trimmed n hn)).trans (List.map_id _)
  have hword : ∀ word, ',' ∉ word.toList → names ≠ [word] → ",".intercalate names ≠ word := by
    intro word hfree hne he
    rw [he] at hcut
    rw [← hcut, splitAt, splitChars_eq_splitOn, List.splitOn_eq_singleton hfree] at hne
    exact hne (by simp)
  have hempty : ",".intercalate names ≠ "" :=
    hword "" (by simp) fun he => h.named (he ▸ List.mem_cons_self)
  have hnoop := hword "noop" (by decide) (h.custom "noop" (by simp))
  have hadvanced := hword "advanced" (by decide) (h.custom "advanced" (by simp))
  simp only [parse, text, htrim, hnames, hempty, hnoop, hadvanced, h.named, if_false]

/-- The text of a selection that was read is read as the same selection. -/
theorem parse_text {s : String} {mode : PassMode} (h : parse s = .ok mode) :
    parse mode.text = .ok mode := by
  rcases parse_cases h with rfl | rfl | ⟨names, rfl, hn⟩
  · rfl
  · rfl
  · exact parse_custom hn

end PassMode
end LoopNest
