import LoopNest.LinExpr.Order
import LoopNest.Proofs.LinearArithmetic

namespace Int64

theorem mul?_minus_one (c : Int64) : c.mul? (-1) = c.neg? := by
  rw [mul?, neg?, show (-1 : Int64).toInt = -1 from rfl, Int.mul_neg, Int.mul_one]

theorem add?_zero (c : Int64) : c.add? 0 = some c := by
  rw [add?, toInt_zero, Int.add_zero, ofInt?_toInt]

theorem zero_add? (c : Int64) : add? 0 c = some c := by
  rw [add?, toInt_zero, Int.zero_add, ofInt?_toInt]

theorem sub?_self (c : Int64) : c.sub? c = some 0 := by
  rw [sub?, Int.sub_self, ofInt?_eq_some_iff, toInt_zero]

/-- Adding the negation is subtracting. -/
theorem add?_of_neg? {a c n : Int64} (h : c.neg? = some n) : a.add? n = a.sub? c := by
  rw [add?, sub?, ofInt?_eq_some_iff.mp h, ← Int.sub_eq_add_neg]

end Int64

namespace LoopNest

theorem foldlM_orOverflow {f : β → α → Except Failure β} {g : β → α → Option β} (xs : List α)
    (h : ∀ acc, ∀ a ∈ xs, f acc a = orOverflow (g acc a)) (init : β) :
    xs.foldlM f init = orOverflow (xs.foldlM g init) := by
  induction xs generalizing init with
  | nil => rfl
  | cons x xs ih =>
    rw [List.foldlM_cons, List.foldlM_cons, h init x List.mem_cons_self]
    cases g init x with
    | none => rfl
    | some next => exact ih (fun acc a ha => h acc a (List.mem_cons_of_mem _ ha)) next

namespace LinExpr

def Reduced (e : LinExpr) : Prop := ∀ t ∈ e.terms.entries, t.2 ≠ 0

instance (e : LinExpr) : Decidable e.Reduced :=
  inferInstanceAs (Decidable (∀ t ∈ e.terms.entries, t.2 ≠ 0))

theorem reduced_iff {e : LinExpr} : e.Reduced ↔ ∀ s, e.terms.find? s ≠ some 0 := by
  constructor
  · intro h s hs
    exact h _ (SortedMap.mem_entries_of_find? hs) rfl
  · intro h t ht hzero
    exact h t.1 (hzero ▸ SortedMap.find?_of_mem ht)

def stored (c : Int64) : Option Int64 := if c = 0 then none else some c

@[simp] theorem getD_stored (c : Int64) : (stored c).getD 0 = c := by
  by_cases hc : c = 0 <;> simp [stored, hc]

theorem stored_ne_zero (c : Int64) : stored c ≠ some 0 := by
  by_cases hc : c = 0 <;> simp [stored, hc]

/-- Without stored zeros, the coefficients say what is stored. -/
theorem Reduced.find? {e : LinExpr} (h : e.Reduced) (s : String) :
    e.terms.find? s = stored (e.coeff s) := by
  have hs := reduced_iff.mp h s
  unfold coeff stored
  cases hc : e.terms.find? s with
  | none => simp
  | some c =>
    rw [hc] at hs
    have hne : c ≠ 0 := fun he => hs (congrArg some he)
    simp [hne]

def store (e : LinExpr) (s : String) : Option Int64 → LinExpr
  | some c => { e with terms := e.terms.insert s c }
  | none => { e with terms := e.terms.erase s }

@[simp] theorem store_constant (e : LinExpr) (s : String) (o : Option Int64) :
    (e.store s o).constant = e.constant := by
  cases o <;> rfl

theorem find?_store (e : LinExpr) (s : String) (o : Option Int64) (s' : String) :
    (e.store s o).terms.find? s' = if s' = s then o else e.terms.find? s' := by
  cases o with
  | none => exact SortedMap.find?_erase ..
  | some c => exact SortedMap.find?_insert ..

theorem ext_find? {a b : LinExpr} (hc : a.constant = b.constant)
    (ht : ∀ s, a.terms.find? s = b.terms.find? s) : a = b :=
  ext_entries hc (congrArg SortedMap.entries (SortedMap.ext_find? ht))

abbrev Change := Option Int64 → Int64 → Option (Option Int64)

def change (op : Change) (e : LinExpr) (t : String × Int64) : Option LinExpr :=
  (op (e.terms.find? t.1) t.2).map (e.store t.1)

section
variable {op op' : Change} {ts : List (String × Int64)} {start r : LinExpr}

/-- Terms with distinct symbols change one coefficient each. -/
theorem foldlM_change_eq_some_iff (hnd : (ts.map Prod.fst).Nodup) :
    ts.foldlM (change op) start = some r ↔ r.constant = start.constant ∧
      (∀ s, s ∉ ts.map Prod.fst → r.terms.find? s = start.terms.find? s) ∧
      ∀ t ∈ ts, op (start.terms.find? t.1) t.2 = some (r.terms.find? t.1) := by
  induction ts generalizing start with
  | nil =>
    simp only [List.foldlM_nil, Option.pure_def, Option.some.injEq, List.map_nil, List.not_mem_nil,
      not_false_eq_true, forall_const, false_implies, and_true]
    constructor
    · rintro rfl
      exact ⟨rfl, fun _ => rfl⟩
    · rintro ⟨hc, ht⟩
      exact ext_find? hc.symm fun s => (ht s).symm
  | cons t ts ih =>
    rw [List.map_cons, List.nodup_cons] at hnd
    -- the other terms leave the coefficient of this one alone
    have hother : ∀ o, ∀ u ∈ ts, (start.store t.1 o).terms.find? u.1 = start.terms.find? u.1 := by
      intro o u hu
      have hne : u.1 ≠ t.1 := fun he => hnd.1 (he ▸ List.mem_map_of_mem hu)
      rw [find?_store, if_neg hne]
    rw [List.foldlM_cons, change, List.forall_mem_cons]
    cases ho : op (start.terms.find? t.1) t.2 with
    | none => simp
    | some o =>
      simp only [Option.map_some, Option.bind_eq_bind, Option.bind_some, ih hnd.2, store_constant,
        Option.some.injEq]
      refine and_congr_right fun _ => ?_
      constructor
      · rintro ⟨hkept, hchanged⟩
        refine ⟨fun s hs => ?_, ?_, fun u hu => ?_⟩
        · rw [List.map_cons, List.mem_cons, not_or] at hs
          rw [hkept s hs.2, find?_store, if_neg hs.1]
        · rw [hkept t.1 hnd.1, find?_store, if_pos rfl]
        · rw [← hchanged u hu, hother o u hu]
      · rintro ⟨hkept, hfirst, hchanged⟩
        refine ⟨fun s hs => ?_, fun u hu => ?_⟩
        · rw [find?_store]
          by_cases he : s = t.1
          · rw [if_pos he, he, hfirst]
          · rw [if_neg he, hkept s (by simp [he, hs])]
        · rw [hother o u hu, hchanged u hu]

theorem foldlM_change_eq_none_iff (hnd : (ts.map Prod.fst).Nodup) :
    ts.foldlM (change op) start = none ↔ ∃ t ∈ ts, op (start.terms.find? t.1) t.2 = none := by
  induction ts generalizing start with
  | nil => simp
  | cons t ts ih =>
    rw [List.map_cons, List.nodup_cons] at hnd
    rw [List.foldlM_cons, change, List.exists_mem_cons_iff]
    cases ho : op (start.terms.find? t.1) t.2 with
    | none => simp
    | some o =>
      simp only [Option.map_some, Option.bind_eq_bind, Option.bind_some, ih hnd.2, reduceCtorEq,
        false_or]
      refine exists_congr fun u => and_congr_right fun hu => ?_
      have hne : u.1 ≠ t.1 := fun he => hnd.1 (he ▸ List.mem_map_of_mem hu)
      rw [find?_store, if_neg hne]

/-- Only what happens to the coefficients that are there at the start counts. -/
theorem foldlM_change_congr (hnd : (ts.map Prod.fst).Nodup)
    (h : ∀ t ∈ ts, op (start.terms.find? t.1) t.2 = op' (start.terms.find? t.1) t.2) :
    ts.foldlM (change op) start = ts.foldlM (change op') start := by
  refine Option.ext fun r => ?_
  rw [foldlM_change_eq_some_iff hnd, foldlM_change_eq_some_iff hnd]
  refine and_congr_right fun _ => and_congr_right fun _ => forall₂_congr fun t ht => ?_
  rw [h t ht]

end

def plus : Change := fun o c => ((o.getD 0).add? c).map stored

theorem addTerm_eq (e : LinExpr) (s : String) (c : Int64) :
    e.addTerm s c = orOverflow (change plus e (s, c)) := by
  unfold addTerm change plus coeff
  cases (((e.terms.find? s).getD 0).add? c) with
  | none => rfl
  | some sum =>
    by_cases hzero : sum = 0 <;> simp [orOverflow, stored, store, hzero]

theorem add?_eq (a b : LinExpr) : a.add? b = (a.constant.add? b.constant).bind fun constant =>
    b.terms.entries.foldlM (change plus) { a with constant } := by
  unfold add?
  refine bind_congr fun constant => congrArg (fun f => List.foldlM f _ _) ?_
  funext out t
  unfold change plus coeff
  cases (((out.terms.find? t.1).getD 0).add? t.2) with
  | none => rfl
  | some sum =>
    by_cases hzero : sum = 0 <;> simp [stored, store, hzero, SortedMap.insert_erase]

theorem add_eq (a b : LinExpr) : a.add b = orOverflow (a.add? b) := by
  unfold add
  rw [add?_eq]
  cases a.constant.add? b.constant with
  | none => rfl
  | some constant =>
    have hfold := foldlM_orOverflow (g := change plus) b.terms.entries
      (fun out t _ => addTerm_eq out t.1 t.2) { a with constant }
    exact hfold

/-- What is stored in a sum: the symbols of the second operand get the sum of both coefficients, the
others keep theirs. -/
theorem add?_find? {a b r : LinExpr} (h : a.add? b = some r) :
    (∀ s, b.terms.find? s = none → r.terms.find? s = a.terms.find? s) ∧
    ∀ s c, b.terms.find? s = some c → ∃ sum, (a.coeff s).add? c = some sum ∧
      r.terms.find? s = stored sum := by
  rw [add?_eq] at h
  obtain ⟨constant, -, h⟩ := Option.bind_eq_some_iff.mp h
  obtain ⟨-, hkept, hsum⟩ := (foldlM_change_eq_some_iff b.terms.keys_nodup).mp h
  refine ⟨fun s hs => hkept s fun hin => ?_, fun s c hs => ?_⟩
  · have hfound := SortedMap.mem_keys_iff.mp hin
    rw [hs] at hfound
    cases hfound
  · have hterm := hsum (s, c) (SortedMap.mem_entries_of_find? hs)
    obtain ⟨sum, hadd, hstored⟩ := Option.map_eq_some_iff.mp hterm
    exact ⟨sum, hadd, hstored.symm⟩

theorem add?_coeff {a b r : LinExpr} (h : a.add? b = some r) (s : String) :
    (a.coeff s).add? (b.coeff s) = some (r.coeff s) := by
  obtain ⟨hkept, hsum⟩ := add?_find? h
  cases hs : b.terms.find? s with
  | none =>
    simp only [coeff, hs, hkept s hs, Option.getD_none, Int64.add?_zero]
  | some c =>
    obtain ⟨sum, hadd, hstored⟩ := hsum s c hs
    rw [coeff.eq_def b, coeff.eq_def r, hstored, hs, getD_stored, Option.getD_some]
    exact hadd

theorem add?_reduced {a b r : LinExpr} (ha : a.Reduced) (h : a.add? b = some r) : r.Reduced := by
  obtain ⟨hkept, hsum⟩ := add?_find? h
  refine reduced_iff.mpr fun s => ?_
  cases hs : b.terms.find? s with
  | none =>
    rw [hkept s hs]
    exact reduced_iff.mp ha s
  | some c =>
    obtain ⟨sum, -, hstored⟩ := hsum s c hs
    rw [hstored]
    exact stored_ne_zero sum

/-- What some stored term satisfies, some coefficient satisfies, unless zero does. -/
theorem exists_term_iff {e : LinExpr} {P : String → Int64 → Prop} (hzero : ∀ s, ¬P s 0) :
    (∃ t ∈ e.terms.entries, P t.1 t.2) ↔ ∃ s, P s (e.coeff s) := by
  constructor
  · rintro ⟨t, ht, hp⟩
    refine ⟨t.1, ?_⟩
    rw [coeff, SortedMap.find?_of_mem ht]
    exact hp
  · rintro ⟨s, hp⟩
    unfold coeff at hp
    cases hs : e.terms.find? s with
    | none => exact absurd (by simpa [hs] using hp) (hzero s)
    | some c => exact ⟨(s, c), SortedMap.mem_entries_of_find? hs, by simpa [hs] using hp⟩

/-- A sum overflows exactly if the constants or the coefficients of some symbol do. -/
theorem add?_eq_none_iff {a b : LinExpr} : a.add? b = none ↔
    a.constant.add? b.constant = none ∨ ∃ s, (a.coeff s).add? (b.coeff s) = none := by
  have hterms := exists_term_iff (e := b) (P := fun s c => (a.coeff s).add? c = none)
    fun s => by simp [Int64.add?_zero]
  rw [add?_eq, ← hterms]
  cases a.constant.add? b.constant with
  | none => simp
  | some constant =>
    rw [Option.bind_some, foldlM_change_eq_none_iff b.terms.keys_nodup]
    simp [plus, coeff]

/-- A multiple of the term, which takes the place of what is stored unless it is zero. -/
def times (n : Int64) : Change := fun o c => (c.mul? n).map fun c => (stored c).or o

theorem store_self (e : LinExpr) (s : String) : e.store s (e.terms.find? s) = e := by
  refine ext_find? (store_constant ..) fun s' => ?_
  rw [find?_store]
  by_cases he : s' = s <;> simp [he]

theorem scale?_eq (e : LinExpr) (n : Int64) : e.scale? n = (e.constant.mul? n).bind fun constant =>
    e.terms.entries.foldlM (change (times n)) (int constant) := by
  unfold scale?
  refine bind_congr fun constant => congrArg (fun f => List.foldlM f _ _) ?_
  funext out t
  unfold change times
  cases t.2.mul? n with
  | none => rfl
  | some c =>
    by_cases hzero : c = 0
    · simp [stored, hzero, store_self]
    · simp [stored, hzero, store]

theorem scale_eq (e : LinExpr) (n : Int64) : e.scale n = orOverflow (e.scale? n) := by
  unfold scale
  rw [scale?_eq]
  cases e.constant.mul? n with
  | none => rfl
  | some constant =>
    have hstep : ∀ (out : LinExpr) (t : String × Int64),
        (do out.addTerm t.1 (← orOverflow (t.2.mul? n))) =
          orOverflow (change (fun o c => (c.mul? n).bind (plus o)) out t) := by
      intro out t
      unfold change
      dsimp only
      cases t.2.mul? n with
      | none => rfl
      | some c => exact addTerm_eq out t.1 c
    -- every symbol is new when its term is added, so adding the multiple stores it
    have hstore : e.terms.entries.foldlM (change fun o c => (c.mul? n).bind (plus o))
        (int constant) = e.terms.entries.foldlM (change (times n)) (int constant) := by
      refine foldlM_change_congr e.terms.keys_nodup fun t _ => ?_
      unfold plus times
      cases t.2.mul? n with
      | none => rfl
      | some c => simp [int, Int64.zero_add?]
    have hfold := foldlM_orOverflow e.terms.entries (fun out t _ => hstep out t)
      (int constant)
    exact hfold.trans (congrArg orOverflow hstore)

theorem scale?_find? {e r : LinExpr} {n : Int64} (h : e.scale? n = some r) (s : String) :
    ∃ c, (e.coeff s).mul? n = some c ∧ r.terms.find? s = stored c := by
  rw [scale?_eq] at h
  obtain ⟨constant, -, h⟩ := Option.bind_eq_some_iff.mp h
  obtain ⟨-, hkept, hmul⟩ := (foldlM_change_eq_some_iff e.terms.keys_nodup).mp h
  cases hs : e.terms.find? s with
  | none =>
    have hnot : s ∉ e.terms.entries.map Prod.fst := by
      intro hin
      have hfound := SortedMap.mem_keys_iff.mp hin
      rw [hs] at hfound
      cases hfound
    have hcoeff : (e.coeff s).toInt * n.toInt = (0 : Int64).toInt := by simp [coeff, hs]
    exact ⟨0, Int64.ofInt?_eq_some_iff.mpr hcoeff.symm, hkept s hnot⟩
  | some c =>
    have hterm := hmul (s, c) (SortedMap.mem_entries_of_find? hs)
    obtain ⟨c', hc', hstored⟩ := Option.map_eq_some_iff.mp hterm
    refine ⟨c', by simpa [coeff, hs] using hc', ?_⟩
    rw [← hstored]
    exact Option.or_none

theorem scale?_coeff {e r : LinExpr} {n : Int64} (h : e.scale? n = some r) (s : String) :
    (e.coeff s).mul? n = some (r.coeff s) := by
  obtain ⟨c, hc, hstored⟩ := scale?_find? h s
  rw [coeff.eq_def r, hstored, getD_stored]
  exact hc

theorem scale?_constant {e r : LinExpr} {n : Int64} (h : e.scale? n = some r) :
    e.constant.mul? n = some r.constant := by
  rw [scale?_eq] at h
  obtain ⟨constant, hc, h⟩ := Option.bind_eq_some_iff.mp h
  rw [((foldlM_change_eq_some_iff e.terms.keys_nodup).mp h).1]
  exact hc

/-- Multiples that are zero are not stored, whatever is stored in the operand. -/
theorem scale?_reduced {e r : LinExpr} {n : Int64} (h : e.scale? n = some r) : r.Reduced := by
  refine reduced_iff.mpr fun s => ?_
  obtain ⟨c, -, hstored⟩ := scale?_find? h s
  rw [hstored]
  exact stored_ne_zero c

/-- A multiple overflows exactly if that of the constant or of some coefficient does. -/
theorem scale?_eq_none_iff {e : LinExpr} {n : Int64} : e.scale? n = none ↔
    e.constant.mul? n = none ∨ ∃ s, (e.coeff s).mul? n = none := by
  have hzero : (0 : Int64).mul? n = some 0 := Int64.ofInt?_eq_some_iff.mpr (by simp)
  have hterms := exists_term_iff (e := e) (P := fun _ c => c.mul? n = none) fun s => by simp [hzero]
  rw [scale?_eq, ← hterms]
  cases e.constant.mul? n with
  | none => simp
  | some constant =>
    rw [Option.bind_some, foldlM_change_eq_none_iff e.terms.keys_nodup]
    simp [times]

theorem sub_eq (a b : LinExpr) : a.sub b = orOverflow (a.sub? b) := by
  unfold sub sub? neg
  rw [scale_eq]
  cases b.scale? (-1) with
  | none => rfl
  | some negated => exact add_eq a negated

theorem sub?_reduced {a b r : LinExpr} (ha : a.Reduced) (h : a.sub? b = some r) : r.Reduced := by
  obtain ⟨negated, -, hadd⟩ := Option.bind_eq_some_iff.mp h
  exact add?_reduced ha hadd

/-- A negation overflows exactly if the least integer is in the operand. -/
theorem negated_eq_none_iff {e : LinExpr} : e.scale? (-1) = none ↔
    e.constant = Int64.minValue ∨ ∃ s, e.coeff s = Int64.minValue := by
  simp only [scale?_eq_none_iff, Int64.mul?_minus_one, Int64.neg?_eq_none_iff]

/-- A difference overflows exactly if the negation of the second operand does, or the difference of
the constants or of the coefficients of some symbol. -/
theorem sub?_eq_none_iff {a b : LinExpr} : a.sub? b = none ↔
    (b.constant = Int64.minValue ∨ ∃ s, b.coeff s = Int64.minValue) ∨
      a.constant.sub? b.constant = none ∨ ∃ s, (a.coeff s).sub? (b.coeff s) = none := by
  rw [← negated_eq_none_iff, sub?]
  cases hneg : b.scale? (-1) with
  | none => simp
  | some negated =>
    have hconstant := scale?_constant hneg
    have hcoeff := scale?_coeff hneg
    simp only [Int64.mul?_minus_one] at hconstant hcoeff
    simp only [Option.bind_eq_bind, Option.bind_some, add?_eq_none_iff,
      Int64.add?_of_neg? hconstant, fun s => Int64.add?_of_neg? (a := a.coeff s) (hcoeff s),
      reduceCtorEq, false_or]

theorem weigh_eq_zero {v : String → Int} {ts : List (String × Int64)} (h : ∀ t ∈ ts, v t.1 = 0) :
    weigh v ts = 0 := by
  induction ts with
  | nil => rfl
  | cons t ts ih =>
    obtain ⟨ht, hts⟩ := List.forall_mem_cons.mp h
    rw [weigh_cons, ht, ih hts, Int.mul_zero, Int.add_zero]

theorem denote_of_zeros (e : LinExpr) : e.denote (fun _ => 0) = e.constant.toInt := by
  rw [denote_eq, weigh_eq_zero fun _ _ => rfl, Int.add_zero]

/-- Where one symbol alone has a value, namely one, only its coefficient counts. -/
theorem denote_of_one (e : LinExpr) (s : String) :
    e.denote (fun s' => if s' = s then 1 else 0) = e.constant.toInt + (e.coeff s).toInt := by
  have hothers : ∀ t ∈ (e.terms.erase s).entries, (if t.1 = s then 1 else 0 : Int) = 0 := by
    intro t ht
    have hfind := SortedMap.find?_of_mem ht
    rw [SortedMap.find?_erase] at hfind
    split at hfind
    · cases hfind
    · rename_i hne
      exact if_neg hne
  rw [denote_eq, coeff_mul e s, weigh_eq_zero hothers, if_pos rfl, Int.zero_add, Int.mul_one]

/-- Expressions without stored zeros are equal if they have the same values. -/
theorem eq_of_denote {a b : LinExpr} (ha : a.Reduced) (hb : b.Reduced)
    (h : ∀ v, a.denote v = b.denote v) : a = b := by
  have hconstant := h fun _ => 0
  simp only [denote_of_zeros] at hconstant
  refine ext_find? (Int64.toInt_inj.mp hconstant) fun s => ?_
  have hone := h fun s' => if s' = s then 1 else 0
  rw [denote_of_one, denote_of_one, hconstant, Int.add_right_inj] at hone
  rw [ha.find?, hb.find?, Int64.toInt_inj.mp hone]

theorem evaluate?_denote {e : LinExpr} {bound : String → Option Int64} {w : Int64}
    (h : e.evaluate? bound = some w) {v : String → Int}
    (hv : ∀ s c, bound s = some c → v s = c.toInt) : w.toInt = e.denote v := by
  unfold evaluate? at h
  rw [denote_eq]
  generalize e.constant = start at h
  generalize e.terms.entries = ts at h
  induction ts generalizing start with
  | nil =>
    cases h
    exact (Int.add_zero _).symm
  | cons t ts ih =>
    rw [List.foldlM_cons] at h
    obtain ⟨next, hnext, h⟩ := Option.bind_eq_some_iff.mp h
    obtain ⟨c, hc, hnext⟩ := Option.bind_eq_some_iff.mp hnext
    obtain ⟨product, hproduct, hsum⟩ := Option.bind_eq_some_iff.mp hnext
    rw [ih next h, Int64.ofInt?_eq_some_iff.mp hsum, Int64.ofInt?_eq_some_iff.mp hproduct,
      weigh_cons, hv t.1 c hc, Int.add_assoc]

/-- The plain and the checked form of an operation overflow together, exactly in the given case.
Otherwise they give the same expression, which has the given value under every valuation. -/
structure Computes (plain : Except Failure LinExpr) (checked : Option LinExpr) (overflows : Prop)
    (value : (String → Int) → Int) : Prop where
  agree : plain = orOverflow checked
  overflow : checked = none ↔ overflows
  exact : ∀ r, checked = some r → ∀ v, r.denote v = value v

/-- Checked and plain arithmetic agree and are exact, and so is an evaluation that gives a value.
Sums, differences and multiples of expressions without stored zeros have none either, and two such
expressions with the same values are equal. -/
theorem arithmetic_exact (a b : LinExpr) (n : Int64) :
    Computes (a.add b) (a.add? b)
      (a.constant.add? b.constant = none ∨ ∃ s, (a.coeff s).add? (b.coeff s) = none)
      (fun v => a.denote v + b.denote v) ∧
    Computes (a.sub b) (a.sub? b)
      ((b.constant = Int64.minValue ∨ ∃ s, b.coeff s = Int64.minValue) ∨
        a.constant.sub? b.constant = none ∨ ∃ s, (a.coeff s).sub? (b.coeff s) = none)
      (fun v => a.denote v - b.denote v) ∧
    Computes (a.scale n) (a.scale? n)
      (a.constant.mul? n = none ∨ ∃ s, (a.coeff s).mul? n = none)
      (fun v => n.toInt * a.denote v) ∧
    (∀ bound w, a.evaluate? bound = some w →
      ∀ v : String → Int, (∀ s c, bound s = some c → v s = c.toInt) → w.toInt = a.denote v) ∧
    (a.Reduced → b.Reduced →
      (∀ r, a.add? b = some r ∨ a.sub? b = some r ∨ a.scale? n = some r → r.Reduced) ∧
      ((∀ v, a.denote v = b.denote v) → a = b)) := by
  refine ⟨⟨add_eq a b, add?_eq_none_iff, fun r h => add?_denote h⟩,
    ⟨sub_eq a b, sub?_eq_none_iff, fun r h => sub?_denote h⟩,
    ⟨scale_eq a n, scale?_eq_none_iff, fun r h => scale?_denote h⟩,
    fun bound w h v hv => evaluate?_denote h hv, fun ha hb => ⟨?_, eq_of_denote ha hb⟩⟩
  rintro r (h | h | h)
  · exact add?_reduced ha h
  · exact sub?_reduced ha h
  · exact scale?_reduced h

/-- The least integer has no difference to itself, as its negation overflows. -/
theorem arithmetic_exact_least :
    (int .minValue).sub? (int .minValue) = none ∧
      (int .minValue).sub (int .minValue) = .error .overflow := by
  obtain ⟨-, hsub, -⟩ := arithmetic_exact (int .minValue) (int .minValue) 0
  have hnone := hsub.overflow.mpr (.inl (.inl rfl))
  exact ⟨hnone, by rw [hsub.agree, hnone]; rfl⟩

end LinExpr
end LoopNest
