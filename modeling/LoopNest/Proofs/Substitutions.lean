import LoopNest.Expr
import LoopNest.Proofs.CheckedArithmetic
import Mathlib.Data.List.Nodup

namespace LoopNest

/-- The values before a substitution: that of a mapped symbol is the value of its replacement. -/
def Substitution.valuation (m : Substitution) (v : String → Int) (s : String) : Int :=
  match m.find? s with
  | some replacement => replacement.denote v
  | none => v s

theorem Substitution.find?_rename (old new s : String) :
    (rename old new).find? s = if s = old then some (.symbol new) else none := by
  rw [rename, SortedMap.find?_entries]
  by_cases h : s = old <;> simp [SortedMap.singleton, h]

theorem Substitution.valuation_rename (old new : String) (v : String → Int) :
    (rename old new).valuation v = Function.update v old (v new) := by
  funext s
  unfold valuation
  rw [find?_rename]
  by_cases h : s = old
  · rw [if_pos h, h, Function.update_self]
    exact LinExpr.denote_symbol new v
  · rw [if_neg h, Function.update_of_ne h]

namespace LinExpr

variable {e r : LinExpr} {m : Substitution}

/-- Each term adds its multiple of the replacement, whatever the other terms have added. -/
theorem substitute_denote (h : e.substitute m = .ok r) (v : String → Int) :
    r.denote v = e.denote (m.valuation v) := by
  have hsum := foldlM_denote (fun t => t.2.toInt * m.valuation v t.1) v h fun out t r h => by
    unfold Substitution.valuation
    cases hm : m.find? t.1 with
    | none =>
      rw [hm] at h
      exact addTerm_denote h v
    | some replacement =>
      rw [hm] at h
      obtain ⟨scaled, hs, h⟩ := Returns.of_bind (returns_ok h)
      rw [add_denote h, scale_denote hs]
  rw [hsum, int_denote, denote]

end LinExpr

theorem Access.substitute_element {a b : Access} {m : Substitution} (h : a.substitute m = .ok b)
    (v : String → Int) : b.element v = a.element (m.valuation v) := by
  obtain ⟨indices, hi, h⟩ := Returns.of_bind (returns_ok h)
  have hvalues : indices.map (·.denote v) = a.indices.map (·.denote (m.valuation v)) := by
    rw [← List.forall₂_eq_eq_eq, List.forall₂_map_left_iff, List.forall₂_map_right_iff]
    exact ((returns_mapM hi).imp fun _ _ hxy => LinExpr.substitute_denote hxy v).flip
  rw [Returns.of_pure h, element, element, hvalues]

namespace Expr

mutual

theorem substitute_accesses {m : Substitution} (v : String → Int) : {e f : Expr} →
    e.substitute m = .ok f →
      f.accesses.map (·.element v) = e.accesses.map (·.element (m.valuation v))
  | int n, f, h => by
    cases h
    rfl
  | symbol s, f, h => by
    cases h
    rfl
  | access a, f, h => by
    obtain ⟨b, hb, rfl⟩ := returns_map (returns_ok h)
    exact congrArg (fun x => [x]) (Access.substitute_element hb v)
  | add operands, f, h => by
    obtain ⟨out, hout, rfl⟩ := returns_map (returns_ok h)
    exact substitute_accessesList v hout
  | mul operands, f, h => by
    obtain ⟨out, hout, rfl⟩ := returns_map (returns_ok h)
    exact substitute_accessesList v hout
  | neg e, f, h => by
    obtain ⟨g, hg, rfl⟩ := returns_map (returns_ok h)
    exact substitute_accesses (e := e) (f := g) v hg

theorem substitute_accessesList {m : Substitution} (v : String → Int) : {es fs : List Expr} →
    substituteList m es = .ok fs →
      (accessesList fs).map (·.element v) = (accessesList es).map (·.element (m.valuation v))
  | [], fs, h => by
    cases h
    rfl
  | e :: es, fs, h => by
    obtain ⟨f, hf, h⟩ := Returns.of_bind (returns_ok h)
    obtain ⟨rest, hrest, h⟩ := Returns.of_bind h
    rw [Returns.of_pure h, accessesList, accessesList, List.map_append, List.map_append,
      substitute_accesses v hf, substitute_accessesList v hrest]

end

end Expr

namespace LinExpr

variable {e r : LinExpr} {old new : String}

theorem find?_of_notMem {s : String} (h : s ∉ e.freeSymbols) : e.terms.find? s = none :=
  Option.not_isSome_iff_eq_none.mp (mt SortedMap.mem_keys_iff.mpr h)

/-- A multiple of a symbol is added as a single term. -/
theorem add_scaled_symbol (out : LinExpr) (s : String) {c : Int64} (hc : c ≠ 0) :
    (do out.add (← (symbol s).scale c)) = out.addTerm s c := by
  have hzero : (0 : Int64).mul? c = some 0 := Int64.ofInt?_eq_some_iff.mpr (by simp)
  have hone : (1 : Int64).mul? c = some c := Int64.ofInt?_eq_some_iff.mpr (by simp)
  have hterm : (int 0).addTerm s c = .ok ⟨0, .singleton s c⟩ := by
    rw [addTerm_eq, change, plus, int, SortedMap.find?_empty, Option.getD_none, Int64.zero_add?]
    simp [stored, hc, store, orOverflow, SortedMap.insert, SortedMap.insertEntry, SortedMap.empty,
      SortedMap.singleton]
  have hscaled : (symbol s).scale c = .ok ⟨0, .singleton s c⟩ := by
    unfold scale symbol
    rw [hzero]
    simp only [SortedMap.singleton, List.foldlM_cons, List.foldlM_nil, hone, bind_pure]
    exact hterm
  have hsum : out.add ⟨0, .singleton s c⟩ = out.addTerm s c := by
    unfold add
    rw [Int64.add?_zero]
    simp only [SortedMap.singleton, List.foldlM_cons, List.foldlM_nil, bind_pure]
    rfl
  rw [hscaled]
  exact hsum

def renamed (old new : String) (t : String × Int64) : String × Int64 :=
  (if t.1 = old then new else t.1, t.2)

theorem substitute_rename (he : e.Reduced) : e.substitute (.rename old new) =
    orOverflow ((e.terms.entries.map (renamed old new)).foldlM (change plus) (int e.constant)) := by
  rw [List.foldlM_map]
  refine foldlM_orOverflow e.terms.entries (fun out t ht => ?_) (int e.constant)
  rw [Substitution.find?_rename, renamed, ← addTerm_eq]
  by_cases h : t.1 = old
  · rw [if_pos h, if_pos h]
    exact add_scaled_symbol out new (he t ht)
  · rw [if_neg h, if_neg h]

def renamedCoeff (e : LinExpr) (old new s : String) : Option Int64 :=
  if s = new then e.terms.find? old else if s = old then none else e.terms.find? s

theorem mem_renamed (hnew : new ∉ e.freeSymbols) {s : String} {c : Int64} :
    (s, c) ∈ e.terms.entries.map (renamed old new) ↔ renamedCoeff e old new s = some c := by
  have habsent := find?_of_notMem hnew
  have hstored : (s, c) ∈ e.terms.entries.map (renamed old new) ↔
      ∃ k, e.terms.find? k = some c ∧ (if k = old then new else k) = s := by
    simp [renamed, SortedMap.find?_eq_some_iff]
  rw [hstored]
  unfold renamedCoeff
  constructor
  · rintro ⟨k, hk, rfl⟩
    by_cases hold : k = old
    · simpa [hold] using hk
    · have hne : k ≠ new := fun h => by simp [h, habsent] at hk
      simpa [hold, hne] using hk
  · intro h
    split at h
    · exact ⟨old, h, by simp [*]⟩
    · split at h
      · cases h
      · exact ⟨s, h, by simp [*]⟩

theorem renamed_keys_nodup (hnew : new ∉ e.freeSymbols) :
    ((e.terms.entries.map (renamed old new)).map Prod.fst).Nodup := by
  have hkeys : (e.terms.entries.map (renamed old new)).map Prod.fst =
      (e.terms.entries.map Prod.fst).map fun s => if s = old then new else s := by
    rw [List.map_map, List.map_map]
    rfl
  rw [hkeys]
  refine List.Nodup.map_on (fun s hs s' hs' h => ?_) e.terms.keys_nodup
  have hne : s ≠ new := fun he => hnew (he ▸ hs)
  have hne' : s' ≠ new := fun he => hnew (he ▸ hs')
  by_cases hold : s = old <;> by_cases hold' : s' = old <;> simp_all

/-- Renaming a symbol to one that does not occur moves its coefficient and changes nothing else. -/
theorem exists_rename (he : e.Reduced) (hnew : new ∉ e.freeSymbols) :
    ∃ r, e.substitute (.rename old new) = .ok r ∧ r.constant = e.constant ∧
      ∀ s, r.terms.find? s = renamedCoeff e old new s := by
  have hnd : ((e.terms.entries.map (renamed old new)).map Prod.fst).Nodup :=
    renamed_keys_nodup hnew
  rw [substitute_rename he]
  cases hfold : (e.terms.entries.map (renamed old new)).foldlM (change plus) (int e.constant) with
  | none =>
    obtain ⟨t, -, ht⟩ := (foldlM_change_eq_none_iff hnd).mp hfold
    simp [int, plus, Int64.zero_add?] at ht
  | some r =>
    obtain ⟨hconstant, hkept, hchanged⟩ := (foldlM_change_eq_some_iff hnd).mp hfold
    refine ⟨r, rfl, hconstant, fun s => ?_⟩
    cases hs : renamedCoeff e old new s with
    | none =>
      refine hkept s fun hin => ?_
      obtain ⟨⟨_, c⟩, ht, rfl⟩ := List.mem_map.mp hin
      rw [mem_renamed hnew, hs] at ht
      cases ht
    | some c =>
      have hin := (mem_renamed hnew).mpr hs
      obtain ⟨t, ht, hrenamed⟩ := List.mem_map.mp hin
      have hvalue : t.2 = c := congrArg Prod.snd hrenamed
      have hne : c ≠ 0 := hvalue ▸ he t ht
      have hterm := hchanged (s, c) hin
      simpa [int, plus, Int64.zero_add?, stored, hne, eq_comm] using hterm

/-- A renaming to a symbol that does not occur is undone by the renaming back. -/
theorem rename_back (he : e.Reduced) (hnew : new ∉ e.freeSymbols) :
    ∃ r, e.substitute (.rename old new) = .ok r ∧ r.substitute (.rename new old) = .ok e := by
  obtain ⟨r, hr, hconstant, hstored⟩ := @exists_rename e old new he hnew
  have habsent := find?_of_notMem hnew
  have hreduced : r.Reduced := by
    refine reduced_iff.mpr fun s => ?_
    rw [hstored, renamedCoeff]
    split
    · exact reduced_iff.mp he old
    · split
      · simp
      · exact reduced_iff.mp he s
  have hold : old ∉ r.freeSymbols := by
    rw [freeSymbols, SortedMap.mem_keys_iff, hstored, renamedCoeff]
    by_cases h : old = new <;> simp [h, habsent]
  obtain ⟨back, hback, hconstant', hstored'⟩ := @exists_rename r new old hreduced hold
  have hsame : back = e := by
    refine ext_find? (hconstant'.trans hconstant) fun s => ?_
    rw [hstored', renamedCoeff, hstored, hstored, renamedCoeff, renamedCoeff]
    by_cases hs : s = old <;> by_cases hs' : s = new <;> simp_all
  exact ⟨r, hr, hsame ▸ hback⟩

end LinExpr

/-- What is substituted has the value that the original has where every mapped symbol stands for the
value of its replacement, and a substituted access denotes the element that the original denotes
there. A renaming to a symbol that does not occur can be undone. -/
theorem Substitution.simultaneous (m : Substitution) (v : String → Int) :
    (∀ e r : LinExpr, e.substitute m = .ok r → r.denote v = e.denote (m.valuation v)) ∧
    (∀ a b : Access, a.substitute m = .ok b → b.element v = a.element (m.valuation v)) ∧
    ∀ (e : LinExpr) (old new : String), e.Reduced → new ∉ e.freeSymbols →
      ∃ r, e.substitute (.rename old new) = .ok r ∧ r.substitute (.rename new old) = .ok e :=
  ⟨fun _ _ h => LinExpr.substitute_denote h v, fun _ _ h => Access.substitute_element h v,
    fun _ _ _ he hnew => LinExpr.rename_back he hnew⟩

def exchange : Substitution :=
  .ofList [("x", ⟨5, .singleton "y" 1⟩), ("y", ⟨0, .ofList [("x", 1), ("y", -1)]⟩)]

def planar : LinExpr := ⟨1, .ofList [("x", 2), ("y", 3)]⟩

theorem Substitution.simultaneous_exchange :
    (∃ r, planar.substitute exchange = .ok r ∧ r.terms.entries = [("x", 3), ("y", -1)] ∧
      ∀ v, r.denote v = planar.denote (exchange.valuation v)) ∧
    (∃ b, (⟨"u", [planar, .symbol "y"]⟩ : Access).substitute exchange = .ok b ∧
      ∀ v, b.element v = (⟨"u", [planar, .symbol "y"]⟩ : Access).element (exchange.valuation v)) ∧
    ∃ r, planar.substitute (.rename "x" "z") = .ok r ∧
      r.substitute (.rename "z" "x") = .ok planar := by
  obtain ⟨r, hr, hterms⟩ := exists_of_toOption (x := planar.substitute exchange)
    (f := fun r => r.terms.entries) (b := [("x", 3), ("y", -1)]) (by decide +kernel)
  obtain ⟨b, hb, -⟩ := exists_of_toOption
    (x := (⟨"u", [planar, .symbol "y"]⟩ : Access).substitute exchange)
    (f := fun _ => ()) (b := ()) (by decide +kernel)
  refine ⟨⟨r, hr, hterms, fun v => ?_⟩, ⟨b, hb, fun v => ?_⟩, ?_⟩
  · exact (simultaneous exchange v).1 planar r hr
  · exact (simultaneous exchange v).2.1 _ b hb
  · exact (simultaneous exchange fun _ => 0).2.2 planar "x" "z" (by decide +kernel)
      (by decide +kernel)

end LoopNest
