import LoopNest.Proofs.CheckedArithmetic
import LoopNest.Proofs.CodeGrammar

namespace LoopNest
open Code

structure Summand where
  factor : Int
  symbol : Option String

namespace Summand

def value (p : Summand) (v : String → Int) : Int := p.factor * p.symbol.elim 1 v

def unsigned (p : Summand) : List Char :=
  match p.symbol with
  | none => Nat.toDigits 10 p.factor.natAbs
  | some s =>
    if p.factor.natAbs = 1 then s.toList else Nat.toDigits 10 p.factor.natAbs ++ '*' :: s.toList

def text (p : Summand) : List Char := if p.factor < 0 then '-' :: p.unsigned else p.unsigned

def continued (p : Summand) : List Char :=
  ' ' :: (if p.factor < 0 then '-' else '+') :: ' ' :: p.unsigned

def abs (p : Summand) : Summand := ⟨p.factor.natAbs, p.symbol⟩

def Named (p : Summand) : Prop := ∀ s ∈ p.symbol, Identifier s

theorem named_int (n : Int) : (⟨n, none⟩ : Summand).Named := nofun

theorem text_abs (p : Summand) : p.abs.text = p.unsigned := by
  rw [text, if_neg (by simp [abs])]
  rfl

theorem value_abs (p : Summand) (v : String → Int) :
    p.value v = if p.factor < 0 then -p.abs.value v else p.abs.value v := by
  unfold value abs
  split
  · rw [← neg_mul, show p.factor = -(p.factor.natAbs : Int) by omega]
    simp
  · rw [show p.factor = (p.factor.natAbs : Int) by omega]
    simp

theorem text_scaled {n : Int} (h : n.natAbs ≠ 1) (s : String) :
    (⟨n, some s⟩ : Summand).text = (⟨n, none⟩ : Summand).text ++ '*' :: s.toList := by
  rw [text, text, unsigned, unsigned]
  simp only [if_neg h]
  split <;> simp

variable {p : Summand}

theorem mem_unsigned (h : p.Named) {c : Char} (hc : c ∈ p.unsigned) : isWordChar c ∨ c = '*' := by
  unfold unsigned at hc
  split at hc
  · exact .inl (isWordChar_of_isDigit (isDigit_of_mem_digits hc))
  · rename_i s hs
    have hsymbol : ∀ c ∈ s.toList, isWordChar c := List.all_eq_true.mp (h s hs).1
    split at hc
    · exact .inl (hsymbol c hc)
    · rcases List.mem_append.mp hc with hc | hc
      · exact .inl (isWordChar_of_isDigit (isDigit_of_mem_digits hc))
      · exact (List.mem_cons.mp hc).symm.imp_left (hsymbol c)

theorem plus_notMem_unsigned (h : p.Named) : '+' ∉ p.unsigned := fun hc => by
  rcases mem_unsigned h hc with h | h <;> exact absurd h (by decide)

theorem exists_unsigned (h : p.Named) : ∃ c cs, p.unsigned = c :: cs ∧ isWordChar c := by
  obtain ⟨c, cs, hcs, hc⟩ := exists_digits p.factor.natAbs
  unfold unsigned
  split
  · exact ⟨c, cs, hcs, isWordChar_of_isDigit hc⟩
  · rename_i s hs
    split
    · exact (h s hs).exists_cons
    · exact ⟨c, cs ++ '*' :: s.toList, by rw [hcs]; rfl, isWordChar_of_isDigit hc⟩

end Summand

theorem intText_toList (n : Int64) : (intText n).toList = (⟨n.toInt, none⟩ : Summand).text := by
  rw [intText, Summand.text, Summand.unsigned]
  cases n.toInt with
  | ofNat m => simp [toString, Int.repr]
  | negSucc m => simp [toString, Int.repr]

namespace LinExpr

theorem termText_toList (s : String) (c : Int64) :
    (termText s c).toList = (⟨c.toInt, some s⟩ : Summand).text := by
  by_cases hone : c = 1
  · rw [hone]
    rfl
  by_cases hminus : c = -1
  · rw [hminus, termText, if_neg (by decide), if_pos rfl, String.toList_append]
    rfl
  have hint : ∀ n : Int64, c.toInt = n.toInt → c = n := fun n h => Int64.toInt_inj.mp h
  have habs : c.toInt.natAbs ≠ 1 := fun h => by
    rcases Int.natAbs_eq_iff.mp h with h | h
    · exact hone (hint 1 h)
    · exact hminus (hint (-1) h)
  rw [termText, if_neg hone, if_neg hminus, String.toList_append, String.toList_append,
    intText_toList, Summand.text_scaled habs, List.append_assoc]
  rfl

def scaledSymbols (e : LinExpr) : List Summand :=
  e.terms.entries.map fun t => ⟨t.2.toInt, some t.1⟩

def summands (e : LinExpr) : List Summand :=
  if e.constant ≠ 0 ∨ e.scaledSymbols = [] then e.scaledSymbols ++ [⟨e.constant.toInt, none⟩]
  else e.scaledSymbols

theorem parts_toList (e : LinExpr) : e.parts.map String.toList = e.summands.map Summand.text := by
  have hterms : (e.terms.entries.map fun t => termText t.1 t.2).map String.toList =
      e.scaledSymbols.map Summand.text := by
    simp [scaledSymbols, termText_toList]
  have hempty : e.terms.entries.map (fun t => termText t.1 t.2) = [] ↔ e.scaledSymbols = [] := by
    simp [scaledSymbols]
  rw [parts, summands]
  simp only [hempty]
  split
  · rw [List.map_append, List.map_append, hterms, List.map_singleton, List.map_singleton,
      intText_toList]
  · exact hterms

theorem exists_summands (e : LinExpr) : ∃ p ps, e.summands = p :: ps := by
  refine List.exists_cons_of_ne_nil ?_
  unfold summands
  split
  · simp
  · rename_i h
    exact (not_or.mp h).2

theorem summands_value (e : LinExpr) (v : String → Int) :
    (e.summands.map (·.value v)).sum = e.denote v := by
  have hterms : (e.scaledSymbols.map (·.value v)).sum = weigh v e.terms.entries := by
    simp [scaledSymbols, Summand.value, weigh, List.sum, Function.comp_def]
  rw [denote_eq, summands]
  split
  · rw [List.map_append, List.sum_append, hterms, Int.add_comm]
    simp [Summand.value]
  · rename_i h
    rw [hterms, Decidable.not_not.mp (not_or.mp h).1, Int64.toInt_zero, Int.zero_add]

def Named (e : LinExpr) : Prop := ∀ s ∈ e.freeSymbols, Identifier s

instance (e : LinExpr) : Decidable e.Named :=
  inferInstanceAs (Decidable (∀ s ∈ e.freeSymbols, Identifier s))

theorem named_of_mem_summands {e : LinExpr} (h : e.Named) {p : Summand} (hp : p ∈ e.summands) :
    p.Named := by
  have hscaled : ∀ p ∈ e.scaledSymbols, p.Named := by
    intro p hp s hs
    obtain ⟨t, ht, rfl⟩ := List.mem_map.mp hp
    cases hs
    exact h t.1 (List.mem_map_of_mem ht)
  unfold summands at hp
  split at hp
  · rcases List.mem_append.mp hp with hp | hp
    · exact hscaled p hp
    · rw [List.mem_singleton.mp hp]
      exact Summand.named_int _
  · exact hscaled p hp

theorem contractSigns_append {cs : List Char} (h : '+' ∉ cs) (rest : List Char) :
    contractSigns (cs ++ rest) = cs ++ contractSigns rest := by
  induction cs with
  | nil => rfl
  | cons c cs ih =>
    obtain ⟨hc, hcs⟩ := not_or.mp (mt List.mem_cons.mpr h)
    rw [List.cons_append, contractSigns, ih hcs, List.cons_append]
    exact fun _ hplus => absurd hplus.symm hc

theorem contractSigns_operator {c : Char} (h : c ≠ '-') (rest : List Char) :
    contractSigns ('+' :: ' ' :: c :: rest) = '+' :: ' ' :: contractSigns (c :: rest) := by
  rw [contractSigns, contractSigns] <;> simp [h]

/-- A sign behind an operator is the only one that is contracted. -/
theorem contractSigns_joined {ps : List Summand} (h : ∀ p ∈ ps, p.Named) :
    contractSigns (ps.flatMap fun p => " + ".toList ++ p.text) = ps.flatMap Summand.continued := by
  induction ps with
  | nil => rfl
  | cons p ps ih =>
    have hp := h p List.mem_cons_self
    have hrest := ih fun q hq => h q (List.mem_cons_of_mem p hq)
    have hplus := Summand.plus_notMem_unsigned hp
    obtain ⟨c, cs, hcs, hc⟩ := Summand.exists_unsigned hp
    have hminus := ne_minus_of_isWordChar hc
    rw [List.flatMap_cons, List.flatMap_cons, Summand.continued, Summand.text]
    by_cases hneg : p.factor < 0
    · rw [if_pos hneg, if_pos hneg]
      show ' ' :: '-' :: ' ' :: contractSigns (p.unsigned ++ _) = _
      rw [contractSigns_append hplus, hrest]
      rfl
    · rw [if_neg hneg, if_neg hneg]
      show ' ' :: contractSigns ('+' :: ' ' :: (p.unsigned ++ _)) = _
      rw [hcs, List.cons_append, contractSigns_operator hminus, ← List.cons_append, ← hcs,
        contractSigns_append hplus, hrest]
      rfl

/-- The text is the first summand and the others behind it. -/
theorem text_toList {e : LinExpr} (h : e.Named) {p : Summand} {ps : List Summand}
    (hsummands : e.summands = p :: ps) :
    e.text.toList = p.text ++ ps.flatMap Summand.continued := by
  have hnamed : ∀ q ∈ p :: ps, q.Named := fun q hq => named_of_mem_summands h (hsummands ▸ hq)
  have hplus : '+' ∉ p.text := by
    have hunsigned := Summand.plus_notMem_unsigned (hnamed p List.mem_cons_self)
    rw [Summand.text]
    split <;> simp [hunsigned]
  rw [text, String.toList_ofList, String.toList_intercalate, parts_toList, hsummands,
    List.map_cons, intercalate_cons, List.flatMap_map, contractSigns_append hplus,
    contractSigns_joined fun q hq => hnamed q (List.mem_cons_of_mem p hq)]

end LinExpr

namespace Code.Tree

inductive IsInteger : Tree → Prop
  | number (n : Nat) : IsInteger (.number n)
  | negative (n : Nat) : IsInteger (.neg (.number n))

inductive Linear : Tree → Prop
  | integer {t} (h : IsInteger t) : Linear t
  | symbol (s : String) : Linear (.symbol s)
  | negative (s : String) : Linear (.neg (.symbol s))
  | scaled {t} (h : IsInteger t) (s : String) : Linear (.mul t (.symbol s))
  | add {t u} (ht : Linear t) (hu : Linear u) : Linear (.add t u)
  | sub {t u} (ht : Linear t) (hu : Linear u) : Linear (.sub t u)

end Code.Tree

namespace Summand

theorem tokens_minus_unsigned {p : Summand} (h : p.Named) :
    tokens ('-' :: p.unsigned) = .minus :: tokens p.unsigned := by
  obtain ⟨c, cs, hcs, hc⟩ := exists_unsigned h
  refine tokens_minus ?_
  simpa [hcs] using ne_minus_of_isWordChar hc

/-- An integer is an operand, whatever its sign. -/
theorem reads_integer (n : Int) : ∃ t, Reads .unary (tokens (⟨n, none⟩ : Summand).text) t ∧
    t.IsInteger ∧ ∀ v elements, t.eval v elements = n := by
  have hreads := Reads.operand (.number n.natAbs)
  rw [← tokens_digits] at hreads
  by_cases hneg : n < 0
  · refine ⟨_, ?_, .negative n.natAbs, fun v elements => ?_⟩
    · rw [text, if_pos hneg, tokens_minus_unsigned (named_int n)]
      exact hreads.neg
    · simp only [Tree.eval]
      omega
  · refine ⟨_, ?_, .number n.natAbs, fun v elements => ?_⟩
    · rw [text, if_neg hneg]
      exact hreads
    · simp only [Tree.eval]
      omega

theorem reads_text {p : Summand} (h : p.Named) : ∃ t, Reads .product (tokens p.text) t ∧
    t.Linear ∧ ∀ v elements, t.eval v elements = p.value v := by
  obtain ⟨n, symbol⟩ := p
  obtain ⟨t, ht, hinteger, hvalue⟩ := reads_integer n
  cases symbol with
  | none => exact ⟨t, ht.factor, .integer hinteger, fun v elements => by simp [hvalue, value]⟩
  | some s =>
    have hs := h s rfl
    have hsymbol := Reads.operand (.symbol hs)
    rw [← tokens_identifier hs] at hsymbol
    by_cases hone : n.natAbs = 1
    · have hunsigned : (⟨n, some s⟩ : Summand).unsigned = s.toList := if_pos hone
      by_cases hneg : n < 0
      · refine ⟨_, ?_, .negative s, fun v elements => ?_⟩
        · rw [text, if_pos hneg, tokens_minus_unsigned h, hunsigned]
          exact hsymbol.neg.factor
        · simp [Tree.eval, value, show n = -1 by omega]
      · refine ⟨_, ?_, .symbol s, fun v elements => ?_⟩
        · rw [text, if_neg hneg, hunsigned]
          exact hsymbol.factor
        · simp [Tree.eval, value, show n = 1 by omega]
    · refine ⟨_, ?_, .scaled hinteger s, fun v elements => ?_⟩
      · rw [text_scaled hone, tokens_append (by decide), tokens_identifier hs]
        exact ht.factor.mul (.operand (.symbol hs))
      · simp [Tree.eval, value, hvalue]

theorem tokens_continued (cs : List Char) (p : Summand) : tokens (cs ++ p.continued) =
    tokens cs ++ (if p.factor < 0 then .minus else .plus) :: tokens p.unsigned := by
  have hblank : tokens (' ' :: p.unsigned) = tokens p.unsigned := tokens_break (by decide) _
  rw [continued, tokens_append (by decide)]
  split
  · rw [tokens_minus (by simp), hblank]
    rfl
  · rw [tokens_plus (by simp), hblank]
    rfl

/-- One more summand extends a sum. -/
theorem reads_continued {p : Summand} (h : p.Named) {cs : List Char} {t : Tree}
    (ht : Reads .sum (tokens cs) t) (hlinear : t.Linear) :
    ∃ u, Reads .sum (tokens (cs ++ p.continued)) u ∧ u.Linear ∧
      ∀ v elements, u.eval v elements = t.eval v elements + p.value v := by
  obtain ⟨w, hw, hwlinear, hvalue⟩ := reads_text (p := p.abs) h
  rw [text_abs] at hw
  rw [tokens_continued]
  by_cases hneg : p.factor < 0
  · refine ⟨.sub t w, ?_, hlinear.sub hwlinear, fun v elements => ?_⟩
    · rw [if_pos hneg]
      exact ht.sub hw
    · rw [Tree.eval, hvalue, p.value_abs, if_pos hneg, Int.sub_eq_add_neg]
  · refine ⟨.add t w, ?_, hlinear.add hwlinear, fun v elements => ?_⟩
    · rw [if_neg hneg]
      exact ht.add hw
    · rw [Tree.eval, hvalue, p.value_abs, if_neg hneg]

theorem reads_flatMap {ps : List Summand} (h : ∀ p ∈ ps, p.Named) {cs : List Char} {t : Tree}
    (ht : Reads .sum (tokens cs) t) (hlinear : t.Linear) :
    ∃ u, Reads .sum (tokens (cs ++ ps.flatMap continued)) u ∧ u.Linear ∧
      ∀ v elements, u.eval v elements = t.eval v elements + (ps.map (·.value v)).sum := by
  induction ps generalizing cs t with
  | nil => exact ⟨t, by simpa using ht, hlinear, by simp⟩
  | cons p ps ih =>
    obtain ⟨u, hu, hulinear, huvalue⟩ := reads_continued (h p List.mem_cons_self) ht hlinear
    obtain ⟨w, hw, hwlinear, hwvalue⟩ :=
      ih (fun q hq => h q (List.mem_cons_of_mem p hq)) hu hulinear
    refine ⟨w, ?_, hwlinear, fun v elements => ?_⟩
    · rw [List.flatMap_cons, ← List.append_assoc]
      exact hw
    · rw [hwvalue, huvalue, List.map_cons, List.sum_cons, Int.add_assoc]

end Summand

namespace LinExpr

/-- The text is read as a sum, with the value of the expression. -/
theorem reads_text {e : LinExpr} (h : e.Named) :
    ∃ t, Reads .sum (tokens e.text.toList) t ∧ t.Linear ∧
      ∀ v elements, t.eval v elements = e.denote v := by
  obtain ⟨p, ps, hsummands⟩ := e.exists_summands
  have hnamed : ∀ q ∈ p :: ps, q.Named := fun q hq => named_of_mem_summands h (hsummands ▸ hq)
  obtain ⟨t, ht, htlinear, htvalue⟩ := Summand.reads_text (hnamed p List.mem_cons_self)
  obtain ⟨u, hu, hulinear, huvalue⟩ :=
    Summand.reads_flatMap (fun q hq => hnamed q (List.mem_cons_of_mem p hq)) ht.summand htlinear
  refine ⟨u, ?_, hulinear, fun v elements => ?_⟩
  · rw [text_toList h hsummands]
    exact hu
  · rw [huvalue, htvalue, ← summands_value, hsummands, List.map_cons, List.sum_cons]

/-- Expressions that are written alike have the same value everywhere. -/
theorem denote_of_text {a b : LinExpr} (ha : a.Named) (hb : b.Named) (h : a.text = b.text)
    (v : String → Int) : a.denote v = b.denote v := by
  obtain ⟨t, ht, -, htvalue⟩ := reads_text ha
  obtain ⟨u, hu, -, huvalue⟩ := reads_text hb
  rw [← htvalue v fun _ => 0, ← huvalue v fun _ => 0, ht.unique (h ▸ hu)]

/-- Where no zero coefficient is stored and the symbols are identifiers, what is written alike is
equal, and a text has one reading only, a sum and difference of integers, symbols and integers times
a symbol with the value of the expression. -/
theorem text_unambiguous {a b : LinExpr} (ha : a.Reduced) (hb : b.Reduced) (hanamed : a.Named)
    (hbnamed : b.Named) :
    (a.text = b.text → a = b) ∧ ∃ t, ReadsAs a.text t ∧ t.Linear ∧
      ∀ v elements, t.eval v elements = a.denote v := by
  refine ⟨fun h => eq_of_denote ha hb (denote_of_text hanamed hbnamed h), ?_⟩
  obtain ⟨t, ht, hlinear, hvalue⟩ := reads_text hanamed
  exact ⟨t, ht.readsAs, hlinear, hvalue⟩

def signs : LinExpr := ⟨-3, .ofList [("x", -1), ("y", 2), ("z", -4)]⟩

def signsListed : LinExpr := ⟨-3, .ofList [("z", -4), ("y", 2), ("x", -1)]⟩

theorem text_unambiguous_signs : signs = signsListed ∧
    ∃ t, ReadsAs "-x + 2*y - 4*z - 3" t ∧ t.Linear ∧
      ∀ v elements, t.eval v elements = signs.denote v := by
  have htext : signs.text = "-x + 2*y - 4*z - 3" := by decide +kernel
  have hlisted : signs.text = signsListed.text := by decide +kernel
  obtain ⟨heq, hreads⟩ := text_unambiguous (a := signs) (b := signsListed) (by decide +kernel)
    (by decide +kernel) (by decide +kernel) (by decide +kernel)
  exact ⟨heq hlisted, htext ▸ hreads⟩

end LinExpr
end LoopNest
