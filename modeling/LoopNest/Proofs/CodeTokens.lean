import Mathlib.Data.List.Basic

namespace LoopNest.Code

/-- The characters of names and numbers; every character beyond ASCII counts as one. -/
def isWordChar (c : Char) : Bool := c.isAlphanum || c == '_' || 0x80 ≤ c.toNat

theorem isWordChar_of_isDigit {c : Char} (h : c.isDigit) : isWordChar c := by
  simp [isWordChar, Char.isAlphanum, h]

theorem ne_minus_of_isWordChar {c : Char} (h : isWordChar c) : c ≠ '-' := by
  rintro rfl
  exact absurd h (by decide)

def Identifier (s : String) : Prop :=
  s.toList.all isWordChar ∧ s.toList.head?.any fun c => !c.isDigit

instance (s : String) : Decidable (Identifier s) := inferInstanceAs (Decidable (_ ∧ _))

theorem Identifier.exists_cons {s : String} (h : Identifier s) :
    ∃ c cs, s.toList = c :: cs ∧ isWordChar c := by
  obtain ⟨c, hc, -⟩ := (Option.any_eq_true ..).mp h.2
  obtain ⟨cs, hcs⟩ := List.head?_eq_some_iff.mp hc
  exact ⟨c, cs, hcs, List.all_eq_true.mp h.1 c (hcs ▸ List.mem_cons_self)⟩

theorem isDigit_of_mem_digits {n : Nat} {c : Char} (h : c ∈ Nat.toDigits 10 n) : c.isDigit :=
  Nat.isDigit_of_mem_toDigits (by decide) (by decide) h

theorem exists_digits (n : Nat) : ∃ c cs, Nat.toDigits 10 n = c :: cs ∧ c.isDigit := by
  obtain ⟨c, cs, hcs⟩ := List.exists_cons_of_ne_nil (Nat.toDigits_ne_nil (n := n) (b := 10))
  exact ⟨c, cs, hcs, isDigit_of_mem_digits (hcs ▸ List.mem_cons_self)⟩

inductive Token where
  | word (cs : List Char)
  | plus
  | minus
  | times
  | increment
  | decrement
  | openParen
  | closeParen
  | openBracket
  | closeBracket
  | comma
  | other (c : Char)
deriving DecidableEq

def wordOf (cs : List Char) : List Token := if cs = [] then [] else [.word cs]

def single : Char → List Token
  | ' ' => []
  | '+' => [.plus]
  | '-' => [.minus]
  | '*' => [.times]
  | '(' => [.openParen]
  | ')' => [.closeParen]
  | '[' => [.openBracket]
  | ']' => [.closeBracket]
  | ',' => [.comma]
  | c => [.other c]

/-- The tokens from within a word, of which some characters were read. A token is the longest one
that starts where the last one ended, so two adjacent minus signs are one decrement, whatever they
were printed for. -/
def scan (word : List Char) : List Char → List Token
  | [] => wordOf word
  | '+' :: '+' :: rest => wordOf word ++ .increment :: scan [] rest
  | '-' :: '-' :: rest => wordOf word ++ .decrement :: scan [] rest
  | c :: rest =>
    if isWordChar c then scan (word ++ [c]) rest else wordOf word ++ single c ++ scan [] rest

def tokens (cs : List Char) : List Token := scan [] cs

def isBreak (c : Char) : Bool := !isWordChar c && c != '+' && c != '-'

def Unpaired (c : Char) (rest : List Char) : Prop := c = '+' ∨ c = '-' → rest.head? ≠ some c

theorem scan_cons {c : Char} {rest : List Char} (word : List Char) (h : Unpaired c rest) :
    scan word (c :: rest) = if isWordChar c then scan (word ++ [c]) rest
      else wordOf word ++ single c ++ scan [] rest := by
  rw [scan]
  · rintro r rfl rfl
    exact h (.inl rfl) rfl
  · rintro r rfl rfl
    exact h (.inr rfl) rfl

theorem unpaired_of_break {c : Char} {rest : List Char} (h : isBreak c) : Unpaired c rest := by
  rintro (rfl | rfl) <;> exact absurd h (by decide)

theorem unpaired_of_word {c : Char} {rest : List Char} (h : isWordChar c) : Unpaired c rest := by
  rintro (rfl | rfl) <;> exact absurd h (by decide)

theorem unpaired_append {c d : Char} {cs rest : List Char} (h : isBreak c) (hd : Unpaired d cs) :
    Unpaired d (cs ++ c :: rest) := by
  cases cs with
  | nil =>
    rintro (rfl | rfl) ⟨⟩ <;> exact absurd h (by decide)
  | cons x cs => exact hd

theorem scan_break {c : Char} (h : isBreak c) (word rest : List Char) :
    scan word (c :: rest) = wordOf word ++ single c ++ tokens rest := by
  have hword : isWordChar c = false := by
    simp only [isBreak, Bool.and_eq_true, Bool.not_eq_true'] at h
    exact h.1.1
  rw [scan_cons word (unpaired_of_break h), if_neg (by simp [hword])]
  rfl

theorem tokens_break {c : Char} (h : isBreak c) (rest : List Char) :
    tokens (c :: rest) = single c ++ tokens rest := scan_break h [] rest

/-- What is on one side of a break has no part in the tokens of the other. -/
theorem scan_append {c : Char} (h : isBreak c) (word cs rest : List Char) :
    scan word (cs ++ c :: rest) = scan word cs ++ tokens (c :: rest) := by
  fun_induction scan word cs with
  | case1 word => rw [List.nil_append, scan_break h, tokens_break h, List.append_assoc]
  | case2 word cs ih => simp [scan, ih]
  | case3 word cs ih => simp [scan, ih]
  | case4 word d cs hplus hminus hd ih =>
    rw [List.cons_append, scan_cons word (unpaired_of_word hd), if_pos hd, ih]
  | case5 word d cs hplus hminus hd ih =>
    have hd' : Unpaired d cs := by
      rintro (rfl | rfl) hhead
      · obtain ⟨r, hr⟩ := List.head?_eq_some_iff.mp hhead
        exact hplus r rfl hr
      · obtain ⟨r, hr⟩ := List.head?_eq_some_iff.mp hhead
        exact hminus r rfl hr
    rw [List.cons_append, scan_cons word (unpaired_append h hd'), if_neg hd, ih]
    simp only [List.append_assoc]

theorem tokens_append {c : Char} (h : isBreak c) (cs rest : List Char) :
    tokens (cs ++ c :: rest) = tokens cs ++ (single c ++ tokens rest) := by
  rw [← tokens_break h]
  exact scan_append h [] cs rest

theorem scan_word {cs : List Char} (h : cs.all isWordChar) (word : List Char) :
    scan word cs = wordOf (word ++ cs) := by
  induction cs generalizing word with
  | nil => rw [scan, List.append_nil]
  | cons c cs ih =>
    obtain ⟨hc, hcs⟩ := Bool.and_eq_true_iff.mp (List.all_cons ▸ h)
    rw [scan_cons word (unpaired_of_word hc), if_pos hc, ih hcs, List.append_assoc]
    rfl

theorem tokens_word {cs : List Char} (h : cs.all isWordChar) (hne : cs ≠ []) :
    tokens cs = [.word cs] := by
  rw [tokens, scan_word h, List.nil_append, wordOf, if_neg hne]

theorem tokens_digits (n : Nat) : tokens (Nat.toDigits 10 n) = [.word (Nat.toDigits 10 n)] :=
  tokens_word (List.all_eq_true.mpr fun _ hc => isWordChar_of_isDigit (isDigit_of_mem_digits hc))
    Nat.toDigits_ne_nil

theorem tokens_identifier {s : String} (h : Identifier s) : tokens s.toList = [.word s.toList] := by
  obtain ⟨c, cs, hcs, -⟩ := h.exists_cons
  exact tokens_word h.1 (by rw [hcs]; exact List.cons_ne_nil c cs)

theorem tokens_plus {cs : List Char} (h : cs.head? ≠ some '+') :
    tokens ('+' :: cs) = .plus :: tokens cs := scan_cons [] fun _ => h

theorem tokens_minus {cs : List Char} (h : cs.head? ≠ some '-') :
    tokens ('-' :: cs) = .minus :: tokens cs := scan_cons [] fun _ => h

theorem tokens_minus_minus (cs : List Char) : tokens ('-' :: '-' :: cs) = .decrement :: tokens cs :=
  rfl

example : tokens "a---b - -2".toList =
    [.word ['a'], .decrement, .minus, .word ['b'], .minus, .minus, .word ['2']] := by
  decide

theorem intercalate_cons (sep p : List α) (ps : List (List α)) :
    sep.intercalate (p :: ps) = p ++ ps.flatMap (sep ++ ·) := by
  induction ps generalizing p with
  | nil => simp
  | cons q ps ih => simp [List.intercalate_cons_cons, ih]

theorem mem_intercalate {sep p : List α} {ps : List (List α)} {x : α} (hx : x ∈ p) (hp : p ∈ ps) :
    x ∈ sep.intercalate ps := by
  cases ps with
  | nil => cases hp
  | cons q ps =>
    rw [intercalate_cons]
    rcases List.mem_cons.mp hp with rfl | hp
    · exact List.mem_append_left _ hx
    · exact List.mem_append_right _ (List.mem_flatMap.mpr ⟨p, hp, List.mem_append_right _ hx⟩)

def Separates (sep : List Char) (ops : List Token) : Prop :=
  ∀ cs rest, tokens (cs ++ (sep ++ rest)) = tokens cs ++ (ops ++ tokens rest)

theorem separates_break {c : Char} (h : isBreak c) : Separates [c] (single c) := tokens_append h

theorem separates_sum : Separates " + ".toList [.plus] := by
  intro cs rest
  have hplus : tokens ('+' :: ' ' :: rest) = .plus :: tokens (' ' :: rest) := tokens_plus (by simp)
  have hblank : tokens (' ' :: rest) = tokens rest := tokens_break (by decide) rest
  show tokens (cs ++ ' ' :: '+' :: ' ' :: rest) = _
  rw [tokens_append (by decide), hplus, hblank]
  rfl

theorem separates_comma : Separates ", ".toList [.comma] := by
  intro cs rest
  have hblank : tokens (' ' :: rest) = tokens rest := tokens_break (by decide) rest
  show tokens (cs ++ ',' :: ' ' :: rest) = _
  rw [tokens_append (by decide), hblank]
  rfl

theorem tokens_intercalate {sep : List Char} {ops : List Token} (h : Separates sep ops)
    (pieces : List (List Char)) :
    tokens (sep.intercalate pieces) = ops.intercalate (pieces.map tokens) := by
  cases pieces with
  | nil => rfl
  | cons p ps =>
    rw [List.map_cons, intercalate_cons, intercalate_cons]
    induction ps generalizing p with
    | nil => simp
    | cons q ps ih => simp [h p, ih q]

end LoopNest.Code
