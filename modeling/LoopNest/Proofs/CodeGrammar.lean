import LoopNest.Proofs.CodeTokens

namespace LoopNest.Code

inductive Tree where
  | number (n : Nat)
  | symbol (s : String)
  | element (array : String) (subscripts : List Tree)
  | neg (t : Tree)
  | mul (t u : Tree)
  | add (t u : Tree)
  | sub (t u : Tree)

namespace Tree

mutual

def eval (v : String → Int) (elements : String × List Int → Int) : Tree → Int
  | number n => n
  | symbol s => v s
  | element array subscripts => elements (array, evalList v elements subscripts)
  | neg t => -t.eval v elements
  | mul t u => t.eval v elements * u.eval v elements
  | add t u => t.eval v elements + u.eval v elements
  | sub t u => t.eval v elements - u.eval v elements

def evalList (v : String → Int) (elements : String × List Int → Int) : List Tree → List Int
  | [] => []
  | t :: ts => t.eval v elements :: evalList v elements ts

end

end Tree

/-- The phrases of the grammar, from the tightest on. The first is an element whose bracket is still
open. -/
inductive Level where
  | subscripts
  | primary
  | unary
  | product
  | sum

/-- A minus sign binds its operand more tightly than a product does, a product more tightly than a
sum or a difference, and products, sums and differences group to the left. Decrements and increments
assign to their operand and are no arithmetic. -/
inductive Reads : Level → List Token → Tree → Prop
  | number (n : Nat) : Reads .primary [.word (Nat.toDigits 10 n)] (.number n)
  | symbol {s} (h : Identifier s) : Reads .primary [.word s.toList] (.symbol s)
  | paren {ts t} (h : Reads .sum ts t) : Reads .primary (.openParen :: (ts ++ [.closeParen])) t
  | bare {s} (h : Identifier s) :
    Reads .primary [.word s.toList, .openBracket, .closeBracket] (.element s [])
  | first {s ts t} (h : Identifier s) (ht : Reads .sum ts t) :
    Reads .subscripts (.word s.toList :: .openBracket :: ts) (.element s [t])
  | next {s ts subscripts us u} (ht : Reads .subscripts ts (.element s subscripts))
    (hu : Reads .sum us u) :
    Reads .subscripts (ts ++ .comma :: us) (.element s (subscripts ++ [u]))
  | element {ts t} (h : Reads .subscripts ts t) : Reads .primary (ts ++ [.closeBracket]) t
  | operand {ts t} (h : Reads .primary ts t) : Reads .unary ts t
  | neg {ts t} (h : Reads .unary ts t) : Reads .unary (.minus :: ts) (.neg t)
  | factor {ts t} (h : Reads .unary ts t) : Reads .product ts t
  | mul {ts t us u} (ht : Reads .product ts t) (hu : Reads .unary us u) :
    Reads .product (ts ++ .times :: us) (.mul t u)
  | summand {ts t} (h : Reads .product ts t) : Reads .sum ts t
  | add {ts t us u} (ht : Reads .sum ts t) (hu : Reads .product us u) :
    Reads .sum (ts ++ .plus :: us) (.add t u)
  | sub {ts t us u} (ht : Reads .sum ts t) (hu : Reads .product us u) :
    Reads .sum (ts ++ .minus :: us) (.sub t u)

namespace Reads

/-- A minus sign in front of a product negates its first factor, which negates the product. -/
theorem neg_product {ts : List Token} {t : Tree} : Reads .product ts t →
    ∃ u, Reads .product (.minus :: ts) u ∧ ∀ v elements, u.eval v elements = -t.eval v elements
  | .factor h => ⟨.neg t, h.neg.factor, fun _ _ => rfl⟩
  | .mul ht hu => by
    obtain ⟨w, hw, hvalue⟩ := neg_product ht
    refine ⟨_, hw.mul hu, fun v elements => ?_⟩
    rw [Tree.eval, Tree.eval, hvalue, Int.neg_mul]

/-- Products group to the left, however the second one came about. -/
theorem mul_product {ts us : List Token} {t u : Tree} (ht : Reads .product ts t) :
    Reads .product us u → ∃ w, Reads .product (ts ++ .times :: us) w ∧
      ∀ v elements, w.eval v elements = t.eval v elements * u.eval v elements
  | .factor h => ⟨.mul t u, ht.mul h, fun _ _ => rfl⟩
  | @Reads.mul _ _ _ x hu hx => by
    obtain ⟨w, hw, hvalue⟩ := mul_product ht hu
    refine ⟨.mul w x, ?_, fun v elements => ?_⟩
    · rw [← List.cons_append, ← List.append_assoc]
      exact hw.mul hx
    · rw [Tree.eval, Tree.eval, hvalue, Int.mul_assoc]

/-- Decrements have no place in arithmetic. -/
theorem decrement_notMem {level : Level} {ts : List Token} {t : Tree} (h : Reads level ts t) :
    Token.decrement ∉ ts := by
  induction h <;> simp_all

end Reads

/-- What waits for an operand: a sum for its last summand, a product for its last factor, and minus
signs. -/
structure Pending where
  sum : Tree → Tree := id
  product : Tree → Tree := id
  unary : Tree → Tree := id

def Pending.close (p : Pending) (t : Tree) : Tree := p.sum (p.product (p.unary t))

inductive Bracket where
  | paren (p : Pending)
  | subscripts (p : Pending) (array : String) (done : List Tree)

inductive State where
  | before (p : Pending) (brackets : List Bracket)
  | after (p : Pending) (t : Tree) (brackets : List Bracket)

def leaf (cs : List Char) : Tree :=
  if cs.head?.any Char.isDigit then .number (Nat.ofDigitChars 10 cs 0)
  else .symbol (String.ofList cs)

-- the reader may go on where the grammar does not, which adds no second state for what is read
def State.step : State → Token → Option State
  | before p brackets, .word cs => some (after p (leaf cs) brackets)
  | before p brackets, .minus =>
    some (before { p with unary := fun t => p.unary (.neg t) } brackets)
  | before p brackets, .openParen => some (before {} (.paren p :: brackets))
  | before _ (.subscripts q array [] :: brackets), .closeBracket =>
    some (after q (.element array []) brackets)
  | after p t brackets, .times =>
    some (before { sum := p.sum, product := .mul (p.product (p.unary t)) } brackets)
  | after p t brackets, .plus => some (before { sum := .add (p.close t) } brackets)
  | after p t brackets, .minus => some (before { sum := .sub (p.close t) } brackets)
  | after p (.symbol s) brackets, .openBracket => some (before {} (.subscripts p s [] :: brackets))
  | after p t (.paren q :: brackets), .closeParen => some (after q (p.close t) brackets)
  | after p t (.subscripts q array done :: brackets), .comma =>
    some (before {} (.subscripts q array (done ++ [p.close t]) :: brackets))
  | after p t (.subscripts q array done :: brackets), .closeBracket =>
    some (after q (.element array (done ++ [p.close t])) brackets)
  | _, _ => none

def State.run (s : State) (ts : List Token) : Option State := ts.foldlM step s

theorem State.run_append (s : State) (ts us : List Token) :
    s.run (ts ++ us) = (s.run ts).bind (·.run us) := List.foldlM_append

theorem State.run_cons (s : State) (t : Token) (ts : List Token) :
    s.run (t :: ts) = (s.step t).bind (·.run ts) := List.foldlM_cons

theorem leaf_digits (n : Nat) : leaf (Nat.toDigits 10 n) = .number n := by
  have hdigit : (Nat.toDigits 10 n).head?.any Char.isDigit := by
    obtain ⟨c, cs, hcs, hc⟩ := exists_digits n
    rw [hcs]
    exact hc
  rw [leaf, if_pos hdigit, Nat.ofDigitChars_toDigits (by decide) (by decide)]

theorem leaf_identifier {s : String} (h : Identifier s) : leaf s.toList = .symbol s := by
  have hdigit : ¬s.toList.head?.any Char.isDigit := by
    have hhead := h.2
    cases hs : s.toList.head? <;> simp_all
  rw [leaf, if_neg hdigit, String.ofList_toList]

/-- What the reader does with a phrase. In front of a product no factor waits, in front of a sum
nothing does; an unfinished element leaves its bracket behind. -/
def Accepts : Level → List Token → Tree → Prop
  | .subscripts, ts, t => ∀ p brackets, ∃ array done q u, t = .element array (done ++ [q.close u]) ∧
      (State.before p brackets).run ts = some (.after q u (.subscripts p array done :: brackets))
  | .primary, ts, t => ∀ p brackets, (State.before p brackets).run ts = some (.after p t brackets)
  | .unary, ts, t => ∀ p brackets, ∃ q u, q.sum = p.sum ∧ q.product = p.product ∧
      q.unary u = p.unary t ∧ (State.before p brackets).run ts = some (.after q u brackets)
  | .product, ts, t => ∀ f brackets, ∃ q u, q.sum = f ∧ q.product (q.unary u) = t ∧
      (State.before { sum := f } brackets).run ts = some (.after q u brackets)
  | .sum, ts, t => ∀ brackets, ∃ q u, q.close u = t ∧
      (State.before {} brackets).run ts = some (.after q u brackets)

theorem Reads.accepts {level : Level} {ts : List Token} {t : Tree} (h : Reads level ts t) :
    Accepts level ts t := by
  induction h with
  | number n => exact fun p brackets => by rw [State.run_cons, State.step, leaf_digits]; rfl
  | symbol h => exact fun p brackets => by rw [State.run_cons, State.step, leaf_identifier h]; rfl
  | paren h ih =>
    intro p brackets
    obtain ⟨q, u, hclose, hrun⟩ := ih (.paren p :: brackets)
    rw [State.run_cons, State.step, Option.bind_some, State.run_append, hrun, ← hclose]
    rfl
  | bare h =>
    intro p brackets
    rw [State.run_cons, State.step, leaf_identifier h]
    rfl
  | @first s ts t h ht ih =>
    intro p brackets
    obtain ⟨q, u, hclose, hrun⟩ := ih (.subscripts p s [] :: brackets)
    refine ⟨s, [], q, u, by rw [hclose, List.nil_append], ?_⟩
    rw [State.run_cons, State.step, leaf_identifier h]
    exact hrun
  | next ht hu iht ihu =>
    intro p brackets
    obtain ⟨array, done, q, u, heq, hrun⟩ := iht p brackets
    obtain ⟨q', u', hclose, hrun'⟩ := ihu (.subscripts p array (done ++ [q.close u]) :: brackets)
    obtain ⟨rfl, rfl⟩ := Tree.element.inj heq
    refine ⟨_, _, q', u', by rw [hclose], ?_⟩
    rw [State.run_append, hrun]
    exact hrun'
  | element h ih =>
    intro p brackets
    obtain ⟨array, done, q, u, rfl, hrun⟩ := ih p brackets
    rw [State.run_append, hrun]
    rfl
  | operand h ih => exact fun p brackets => ⟨p, _, rfl, rfl, rfl, ih p brackets⟩
  | neg h ih => exact fun p brackets => ih { p with unary := fun t => p.unary (.neg t) } brackets
  | factor h ih =>
    intro f brackets
    obtain ⟨q, u, hsum, hproduct, hunary, hrun⟩ := ih { sum := f } brackets
    exact ⟨q, u, hsum, by rw [hproduct, hunary]; rfl, hrun⟩
  | @mul ts t us u ht hu iht ihu =>
    intro f brackets
    obtain ⟨q, w, rfl, rfl, hrun⟩ := iht f brackets
    obtain ⟨q', w', hsum, hproduct, hunary, hrun'⟩ :=
      ihu { sum := q.sum, product := .mul (q.product (q.unary w)) } brackets
    refine ⟨q', w', hsum, by rw [hproduct, hunary]; rfl, ?_⟩
    rw [State.run_append, hrun]
    exact hrun'
  | summand h ih =>
    intro brackets
    obtain ⟨q, u, hsum, hproduct, hrun⟩ := ih id brackets
    exact ⟨q, u, by rw [Pending.close, hsum, hproduct]; rfl, hrun⟩
  | add ht hu iht ihu =>
    intro brackets
    obtain ⟨q, w, rfl, hrun⟩ := iht brackets
    obtain ⟨q', w', hsum, hproduct, hrun'⟩ := ihu (.add (q.close w)) brackets
    refine ⟨q', w', by rw [Pending.close, hsum, hproduct], ?_⟩
    rw [State.run_append, hrun]
    exact hrun'
  | sub ht hu iht ihu =>
    intro brackets
    obtain ⟨q, w, rfl, hrun⟩ := iht brackets
    obtain ⟨q', w', hsum, hproduct, hrun'⟩ := ihu (.sub (q.close w)) brackets
    refine ⟨q', w', by rw [Pending.close, hsum, hproduct], ?_⟩
    rw [State.run_append, hrun]
    exact hrun'

/-- No sequence of tokens is read as two expressions. -/
theorem Reads.unique {ts : List Token} {t u : Tree} (ht : Reads .sum ts t) (hu : Reads .sum ts u) :
    t = u := by
  obtain ⟨p, t', rfl, hrun⟩ := ht.accepts []
  obtain ⟨q, u', rfl, hrun'⟩ := hu.accepts []
  obtain ⟨rfl, rfl, -⟩ := State.after.inj (Option.some.inj (hrun.symm.trans hrun'))
  rfl

def ReadsAs (text : String) (t : Tree) : Prop := ∀ u, Reads .sum (tokens text.toList) u ↔ u = t

theorem Reads.readsAs {text : String} {t : Tree} (h : Reads .sum (tokens text.toList) t) :
    ReadsAs text t := fun _ => ⟨fun hu => hu.unique h, fun hu => hu ▸ h⟩

abbrev Value := (String → Int) → (String × List Int → Int) → Int

def Says (level : Level) (ts : List Token) (x : Value) : Prop :=
  ∃ t, Reads level ts t ∧ ∀ v elements, t.eval v elements = x v elements

namespace Says

variable {ts us : List Token} {x y : Value}

theorem factor (h : Says .unary ts x) : Says .product ts x := h.imp fun _ h => ⟨h.1.factor, h.2⟩

theorem operand (h : Says .primary ts x) : Says .unary ts x := h.imp fun _ h => ⟨h.1.operand, h.2⟩

theorem summand (h : Says .product ts x) : Says .sum ts x := h.imp fun _ h => ⟨h.1.summand, h.2⟩

theorem paren (h : Says .sum ts x) : Says .primary (.openParen :: (ts ++ [.closeParen])) x :=
  h.imp fun _ h => ⟨h.1.paren, h.2⟩

theorem add (hx : Says .sum ts x) (hy : Says .product us y) :
    Says .sum (ts ++ .plus :: us) fun v elements => x v elements + y v elements := by
  obtain ⟨t, ht, hx⟩ := hx
  obtain ⟨u, hu, hy⟩ := hy
  exact ⟨.add t u, ht.add hu, fun v elements => by rw [Tree.eval, hx, hy]⟩

theorem neg (h : Says .product ts x) :
    Says .product (.minus :: ts) fun v elements => -x v elements := by
  obtain ⟨t, ht, hx⟩ := h
  obtain ⟨u, hu, hvalue⟩ := ht.neg_product
  exact ⟨u, hu, fun v elements => by rw [hvalue, hx]⟩

theorem mul (hx : Says .product ts x) (hy : Says .product us y) :
    Says .product (ts ++ .times :: us) fun v elements => x v elements * y v elements := by
  obtain ⟨t, ht, hx⟩ := hx
  obtain ⟨u, hu, hy⟩ := hy
  obtain ⟨w, hw, hvalue⟩ := ht.mul_product hu
  exact ⟨w, hw, fun v elements => by rw [hvalue, hx, hy]⟩

variable {α : Type} {f : α → List Token} {z : α → Value} {as : List α}

theorem add_flatMap (hx : Says .sum ts x) (h : ∀ a ∈ as, Says .product (f a) (z a)) :
    Says .sum (ts ++ as.flatMap fun a => .plus :: f a) fun v elements =>
      x v elements + (as.map (z · v elements)).foldr (· + ·) 0 := by
  induction as generalizing ts x with
  | nil => simpa using hx
  | cons a as ih =>
    have hsum := ih (hx.add (h a List.mem_cons_self)) fun b hb => h b (List.mem_cons_of_mem a hb)
    simpa [Int.add_assoc] using hsum

theorem mul_flatMap (hx : Says .product ts x) (h : ∀ a ∈ as, Says .product (f a) (z a)) :
    Says .product (ts ++ as.flatMap fun a => .times :: f a) fun v elements =>
      x v elements * (as.map (z · v elements)).foldr (· * ·) 1 := by
  induction as generalizing ts x with
  | nil => simpa using hx
  | cons a as ih =>
    have hprod := ih (hx.mul (h a List.mem_cons_self)) fun b hb => h b (List.mem_cons_of_mem a hb)
    simpa [Int.mul_assoc] using hprod

theorem sum (hne : as ≠ []) (h : ∀ a ∈ as, Says .product (f a) (z a)) :
    Says .sum ([.plus].intercalate (as.map f)) fun v elements =>
      (as.map (z · v elements)).foldr (· + ·) 0 := by
  obtain ⟨a, as, rfl⟩ := List.exists_cons_of_ne_nil hne
  rw [List.map_cons, intercalate_cons, List.flatMap_map]
  exact (h a List.mem_cons_self).summand.add_flatMap fun b hb => h b (List.mem_cons_of_mem a hb)

theorem product (hne : as ≠ []) (h : ∀ a ∈ as, Says .product (f a) (z a)) :
    Says .product ([.times].intercalate (as.map f)) fun v elements =>
      (as.map (z · v elements)).foldr (· * ·) 1 := by
  obtain ⟨a, as, rfl⟩ := List.exists_cons_of_ne_nil hne
  rw [List.map_cons, intercalate_cons, List.flatMap_map]
  exact (h a List.mem_cons_self).mul_flatMap fun b hb => h b (List.mem_cons_of_mem a hb)

end Says

theorem Reads.subscripts_flatMap {α : Type} {f : α → List Token} {z : α → Value} {as : List α}
    {s : String} {ts : List Token} {done : List Tree} (ht : Reads .subscripts ts (.element s done))
    (h : ∀ a ∈ as, Says .sum (f a) (z a)) :
    ∃ more, Reads .subscripts (ts ++ as.flatMap fun a => .comma :: f a)
        (.element s (done ++ more)) ∧
      ∀ v elements, Tree.evalList v elements more = as.map (z · v elements) := by
  induction as generalizing ts done with
  | nil => exact ⟨[], by simpa using ht, fun v elements => rfl⟩
  | cons a as ih =>
    obtain ⟨u, hu, hvalue⟩ := h a List.mem_cons_self
    obtain ⟨more, hmore, hvalues⟩ := ih (ht.next hu) fun b hb => h b (List.mem_cons_of_mem a hb)
    refine ⟨u :: more, by simpa using hmore, fun v elements => ?_⟩
    rw [Tree.evalList, hvalue, hvalues, List.map_cons]

theorem Says.element {α : Type} {f : α → List Token} {z : α → Value} {as : List α} {s : String}
    (hs : Identifier s) (h : ∀ a ∈ as, Says .sum (f a) (z a)) :
    Says .primary
      (.word s.toList :: .openBracket :: ([.comma].intercalate (as.map f) ++ [.closeBracket]))
      fun v elements => elements (s, as.map (z · v elements)) := by
  cases as with
  | nil => exact ⟨_, .bare hs, fun v elements => rfl⟩
  | cons a as =>
    obtain ⟨t, ht, hvalue⟩ := h a List.mem_cons_self
    obtain ⟨more, hmore, hvalues⟩ :=
      (Reads.first hs ht).subscripts_flatMap fun b hb => h b (List.mem_cons_of_mem a hb)
    refine ⟨.element s ([t] ++ more), ?_, fun v elements => ?_⟩
    · rw [List.map_cons, intercalate_cons, List.flatMap_map]
      exact hmore.element
    · rw [Tree.eval, List.singleton_append, Tree.evalList, hvalue, hvalues]
      rfl

end LoopNest.Code
