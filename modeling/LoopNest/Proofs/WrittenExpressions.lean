import LoopNest.Expr
import LoopNest.Proofs.WrittenBounds

namespace LoopNest
open Code

namespace Access

def Named (a : Access) : Prop :=
  Identifier a.array ∧ ∀ i ∈ a.indices, i.Named

instance (a : Access) : Decidable a.Named := inferInstanceAs (Decidable (_ ∧ _))

theorem text_toList (a : Access) : a.text.toList = a.array.toList ++ '[' ::
    ((", ".intercalate (a.indices.map LinExpr.text)).toList ++ [']']) := by
  simp [text]

theorem tokens_text {a : Access} (h : a.Named) : tokens a.text.toList =
    .word a.array.toList :: .openBracket :: ([.comma].intercalate
      (a.indices.map fun i => tokens i.text.toList) ++ [.closeBracket]) := by
  have hindices : tokens (", ".intercalate (a.indices.map LinExpr.text)).toList =
      [.comma].intercalate (a.indices.map fun i => tokens i.text.toList) := by
    rw [String.toList_intercalate, tokens_intercalate separates_comma, List.map_map, List.map_map]
    simp only [Function.comp_def]
  rw [text_toList, tokens_append (by decide), tokens_append (by decide), tokens_identifier h.1,
    hindices]
  rfl

theorem says_text {a : Access} (h : a.Named) :
    Says .primary (tokens a.text.toList) fun v elements => elements (a.element v) := by
  rw [tokens_text h]
  exact Says.element h.1 fun i hi => (LinExpr.reads_text (h.2 i hi)).imp fun _ h => ⟨h.1, h.2.2⟩

end Access

namespace Expr

theorem textList_eq (es : List Expr) : textList es = es.map text := by
  induction es with
  | nil => rfl
  | cons e es ih => rw [textList, ih, List.map_cons]

theorem denoteList_eq (scalars indices : String → Int) (elements : String × List Int → Int)
    (es : List Expr) : denoteList scalars indices elements es =
      es.map (denote scalars indices elements) := by
  induction es with
  | nil => rfl
  | cons e es ih => rw [denoteList, ih, List.map_cons]

theorem add_text (es : List Expr) : (add es).text.toList =
    '(' :: ((" + ".toList.intercalate (es.map fun e => e.text.toList)) ++ [')']) := by
  simp [text, textList_eq, Function.comp_def]

theorem mul_text (es : List Expr) : (mul es).text.toList =
    ['*'].intercalate (es.map fun e => e.text.toList) := by
  simp [text, textList_eq, Function.comp_def]

theorem neg_text (e : Expr) : (neg e).text.toList = '-' :: e.text.toList := by
  simp [text]

/-- Names are identifiers, and sums and products have operands. -/
inductive Named : Expr → Prop
  | int (n : Int64) : Named (.int n)
  | symbol {s} (h : Identifier s) : Named (.symbol s)
  | access {a} (h : a.Named) : Named (.access a)
  | add {operands} (hne : operands ≠ []) (h : ∀ e ∈ operands, Named e) : Named (.add operands)
  | mul {operands} (hne : operands ≠ []) (h : ∀ e ∈ operands, Named e) : Named (.mul operands)
  | neg {e} (h : Named e) : Named (.neg e)

def signed : Expr → Bool
  | int n => n < 0
  | neg _ => true
  | mul (e :: _) => e.signed
  | _ => false

mutual

def negated : Expr → List Expr
  | int _ | symbol _ | access _ => []
  | add operands | mul operands => negatedList operands
  | neg e => e :: e.negated

def negatedList : List Expr → List Expr
  | [] => []
  | e :: es => e.negated ++ negatedList es

end

theorem mem_negatedList {o : Expr} {es : List Expr} :
    o ∈ negatedList es ↔ ∃ e ∈ es, o ∈ e.negated := by
  induction es with
  | nil => simp [negatedList]
  | cons e es ih => simp [negatedList, ih]

/-- No negation stands directly in front of another minus sign. -/
def MinusApart (e : Expr) : Prop := ∀ o ∈ e.negated, o.signed = false

instance (e : Expr) : Decidable e.MinusApart :=
  inferInstanceAs (Decidable (∀ o ∈ e.negated, o.signed = false))

theorem text_head {e : Expr} (h : e.Named) :
    ∃ c cs, e.text.toList = c :: cs ∧ (c = '-' ↔ e.signed = true) := by
  induction h with
  | int n =>
    obtain ⟨c, cs, hcs, hc⟩ := Summand.exists_unsigned (Summand.named_int n.toInt)
    rw [text, intText_toList, Summand.text]
    by_cases hneg : n.toInt < 0
    · exact ⟨'-', _, if_pos hneg, by simpa [signed, Int64.lt_iff_toInt_lt] using hneg⟩
    · refine ⟨c, cs, (if_neg hneg).trans hcs, ?_⟩
      simpa [signed, Int64.lt_iff_toInt_lt, ne_minus_of_isWordChar hc] using hneg
  | symbol h =>
    obtain ⟨c, cs, hcs, hc⟩ := h.exists_cons
    exact ⟨c, cs, hcs, by simp [signed, ne_minus_of_isWordChar hc]⟩
  | @access a h =>
    obtain ⟨c, cs, hcs, hc⟩ := h.1.exists_cons
    have htext := a.text_toList
    rw [hcs, List.cons_append] at htext
    exact ⟨c, _, htext, by simp [signed, ne_minus_of_isWordChar hc]⟩
  | add hne h ih => exact ⟨'(', _, add_text _, by simp [signed]⟩
  | mul hne h ih =>
    obtain ⟨e, es, rfl⟩ := List.exists_cons_of_ne_nil hne
    obtain ⟨c, cs, hcs, hc⟩ := ih e List.mem_cons_self
    have htext := mul_text (e :: es)
    rw [List.map_cons, intercalate_cons, hcs, List.cons_append] at htext
    exact ⟨c, _, htext, by rwa [signed]⟩
  | neg h ih => exact ⟨'-', _, neg_text _, by simp [signed]⟩

theorem tokens_add (es : List Expr) : tokens (add es).text.toList = .openParen ::
    ([.plus].intercalate (es.map fun e => tokens e.text.toList) ++ [.closeParen]) := by
  rw [add_text, tokens_break (by decide), tokens_append (by decide),
    tokens_intercalate separates_sum, List.map_map]
  rfl

theorem tokens_mul (es : List Expr) : tokens (mul es).text.toList =
    [.times].intercalate (es.map fun e => tokens e.text.toList) := by
  rw [mul_text, tokens_intercalate (separates_break (by decide)), List.map_map]
  rfl

theorem tokens_neg {e : Expr} (h : e.Named) (hsigned : e.signed = false) :
    tokens (neg e).text.toList = .minus :: tokens e.text.toList := by
  obtain ⟨c, cs, hcs, hc⟩ := text_head h
  rw [neg_text, tokens_minus]
  rw [hcs]
  rintro ⟨⟩
  simp [hsigned] at hc

theorem decrement_mem_neg {e : Expr} (h : e.Named) (hsigned : e.signed = true) :
    .decrement ∈ tokens (neg e).text.toList := by
  obtain ⟨c, cs, hcs, hc⟩ := text_head h
  rw [neg_text, hcs, hc.mpr hsigned, tokens_minus_minus]
  exact List.mem_cons_self

/-- Two minus signs that meet are a decrement wherever they are in the text. -/
theorem decrement_mem {e o : Expr} (h : e.Named) (ho : o ∈ e.negated) (hsigned : o.signed = true) :
    .decrement ∈ tokens e.text.toList := by
  induction h with
  | int n => cases ho
  | symbol h => cases ho
  | access h => cases ho
  | add hne h ih =>
    obtain ⟨e, he, ho⟩ := mem_negatedList.mp ho
    rw [tokens_add]
    exact List.mem_cons_of_mem _ (List.mem_append_left _
      (mem_intercalate (ih e he ho) (List.mem_map_of_mem he)))
  | mul hne h ih =>
    obtain ⟨e, he, ho⟩ := mem_negatedList.mp ho
    rw [tokens_mul]
    exact mem_intercalate (ih e he ho) (List.mem_map_of_mem he)
  | @neg e h ih =>
    cases he : e.signed with
    | true => exact decrement_mem_neg h he
    | false =>
      rw [tokens_neg h he]
      rcases List.mem_cons.mp ho with rfl | ho
      · simp [he] at hsigned
      · exact List.mem_cons_of_mem _ (ih ho)

theorem says_text {e : Expr} (h : e.Named) (hapart : e.MinusApart) :
    Says .product (tokens e.text.toList) fun v elements => e.denote v v elements := by
  induction h with
  | int n =>
    rw [text, intText_toList]
    obtain ⟨t, ht, -, hvalue⟩ := Summand.reads_integer n.toInt
    exact ⟨t, ht.factor, hvalue⟩
  | symbol h =>
    rw [text, tokens_identifier h]
    exact ⟨_, .factor (.operand (.symbol h)), fun _ _ => rfl⟩
  | access h => exact (Access.says_text h).operand.factor
  | add hne h ih =>
    have hoperands := Says.sum hne fun e he => ih e he fun o ho =>
      hapart o (mem_negatedList.mpr ⟨e, he, ho⟩)
    rw [tokens_add]
    simp only [denote, denoteList_eq]
    exact hoperands.paren.operand.factor
  | mul hne h ih =>
    have hoperands := Says.product hne fun e he => ih e he fun o ho =>
      hapart o (mem_negatedList.mpr ⟨e, he, ho⟩)
    rw [tokens_mul]
    simp only [denote, denoteList_eq]
    exact hoperands
  | neg h ih =>
    rw [tokens_neg h (hapart _ List.mem_cons_self)]
    exact (ih fun o ho => hapart o (List.mem_cons_of_mem _ ho)).neg

theorem decrement_mem_iff {e : Expr} (h : e.Named) :
    .decrement ∈ tokens e.text.toList ↔ ¬e.MinusApart := by
  constructor
  · intro hdecrement hapart
    obtain ⟨t, ht, -⟩ := says_text h hapart
    exact ht.decrement_notMem hdecrement
  · intro hapart
    simp only [MinusApart, not_forall, Bool.not_eq_false] at hapart
    obtain ⟨o, ho, hsigned⟩ := hapart
    exact decrement_mem h ho hsigned

/-- The text is read as an expression with the value of the tree, and as that one only, exactly if
no negation is written directly in front of another minus sign. Otherwise the text contains a
decrement. -/
theorem text_means_iff {e : Expr} (h : e.Named) :
    ((∃ t, ReadsAs e.text t ∧ ∀ v elements, t.eval v elements = e.denote v v elements) ↔
      e.MinusApart) ∧ (.decrement ∈ tokens e.text.toList ↔ ¬e.MinusApart) := by
  refine ⟨⟨?_, fun hapart => ?_⟩, decrement_mem_iff h⟩
  · rintro ⟨t, ht, -⟩
    have hreads : Reads .sum (tokens e.text.toList) t := (ht t).mpr rfl
    exact Decidable.not_not.mp (mt (decrement_mem_iff h).mpr hreads.decrement_notMem)
  · obtain ⟨t, ht, hvalue⟩ := says_text h hapart
    exact ⟨t, ht.summand.readsAs, hvalue⟩

def scaledDifference : Expr :=
  mul [add [symbol "a", neg (access ⟨"u", [⟨-1, .singleton "x" 1⟩]⟩)], int (-2)]

theorem scaledDifference_named : scaledDifference.Named := by
  refine .mul (by simp) ?_
  simp only [List.forall_mem_cons]
  refine ⟨.add (by simp) ?_, .int _, by simp⟩
  simp only [List.forall_mem_cons]
  exact ⟨.symbol (by decide), .neg (.access (by decide +kernel)), by simp⟩

theorem text_means_scaledDifference : scaledDifference.text = "(a + -u[x - 1])*-2" ∧
    ∃ t, ReadsAs scaledDifference.text t ∧
      ∀ v elements, t.eval v elements = scaledDifference.denote v v elements :=
  ⟨by decide +kernel, (text_means_iff scaledDifference_named).1.mpr (by decide +kernel)⟩

/-- A twofold negation is written as a decrement, which no tree is read from. -/
theorem neg_neg_unread : (neg (neg (symbol "a"))).text = "--a" ∧
    tokens "--a".toList = [.decrement, .word ['a']] ∧ ∀ t, ¬Reads .sum (tokens "--a".toList) t := by
  have htokens : tokens "--a".toList = [.decrement, .word ['a']] := by decide +kernel
  refine ⟨by decide +kernel, htokens, fun t h => ?_⟩
  exact h.decrement_notMem (htokens ▸ List.mem_cons_self)

end Expr
end LoopNest
