import LoopNest.Failure
import LoopNest.SortedMap
import LoopNest.Word

namespace LoopNest

/-- The form of every loop bound and subscript: `c₀ + c₁ * s₁ + … + cₙ * sₙ` with 64-bit
coefficients. The plain operations report an overflow as a failure, the checked ones as `none`. -/
structure LinExpr where
  constant : Int64
  terms : SortedMap String Int64
deriving DecidableEq

abbrev Substitution := SortedMap String LinExpr

namespace LinExpr

def int (n : Int64) : LinExpr := ⟨n, .empty⟩

def zero : LinExpr := int 0

instance : Inhabited LinExpr := ⟨zero⟩

def symbol (s : String) : LinExpr := ⟨0, .singleton s 1⟩

/-- Whether no symbol is stored, be it with coefficient zero. -/
def isLiteral (e : LinExpr) : Bool := e.terms.isEmpty

def asLiteral (e : LinExpr) : Option Int64 := if e.isLiteral then some e.constant else none

def isZero (e : LinExpr) : Bool := e.asLiteral == some 0

/-- The coefficient of a symbol, zero if the symbol is absent. -/
def coeff (e : LinExpr) (s : String) : Int64 := (e.terms.find? s).getD 0

def freeSymbols (e : LinExpr) : List String := e.terms.keys

/-- The exact value under a valuation of the symbols. -/
def denote (e : LinExpr) (v : String → Int) : Int :=
  e.constant.toInt + (e.terms.entries.map fun t => t.2.toInt * v t.1).foldr (· + ·) 0

/-- Adds to one coefficient; a coefficient that becomes zero is dropped. -/
def addTerm (e : LinExpr) (s : String) (c : Int64) : Except Failure LinExpr := do
  let sum ← orOverflow ((e.coeff s).add? c)
  return { e with terms := if sum = 0 then e.terms.erase s else e.terms.insert s sum }

def add (a b : LinExpr) : Except Failure LinExpr := do
  let constant ← orOverflow (a.constant.add? b.constant)
  b.terms.entries.foldlM (fun out t => out.addTerm t.1 t.2) { a with constant }

def addInt (e : LinExpr) (n : Int64) : Except Failure LinExpr := do
  return { e with constant := ← orOverflow (e.constant.add? n) }

def subInt (e : LinExpr) (n : Int64) : Except Failure LinExpr := do
  return { e with constant := ← orOverflow (e.constant.sub? n) }

def scale (e : LinExpr) (n : Int64) : Except Failure LinExpr := do
  let constant ← orOverflow (e.constant.mul? n)
  e.terms.entries.foldlM (fun out t => do out.addTerm t.1 (← orOverflow (t.2.mul? n)))
    (int constant)

def neg (e : LinExpr) : Except Failure LinExpr := e.scale (-1)

/-- The difference as the sum with the negated operand, which overflows where the negation does. -/
def sub (a b : LinExpr) : Except Failure LinExpr := do a.add (← b.neg)

/-- Replaces the mapped symbols term by term and keeps the others. -/
def substitute (e : LinExpr) (mapping : Substitution) : Except Failure LinExpr :=
  e.terms.entries.foldlM (fun out t =>
    match mapping.find? t.1 with
    | some replacement => do out.add (← replacement.scale t.2)
    | none => out.addTerm t.1 t.2) (int e.constant)

def add? (a b : LinExpr) : Option LinExpr := do
  let constant ← a.constant.add? b.constant
  b.terms.entries.foldlM (fun out t => do
    let sum ← (out.coeff t.1).add? t.2
    let rest := out.terms.erase t.1
    return { out with terms := if sum ≠ 0 then rest.insert t.1 sum else rest }) { a with constant }

def scale? (e : LinExpr) (n : Int64) : Option LinExpr := do
  let constant ← e.constant.mul? n
  e.terms.entries.foldlM (fun out t => do
    let c ← t.2.mul? n
    return if c ≠ 0 then { out with terms := out.terms.insert t.1 c } else out) (int constant)

def sub? (a b : LinExpr) : Option LinExpr := do a.add? (← b.scale? (-1))

/-- The value under a partial valuation; `none` for an unbound symbol or a value out of range. -/
def evaluate? (e : LinExpr) (v : String → Option Int64) : Option Int64 :=
  e.terms.entries.foldlM (fun sum t => do sum.add? (← t.2.mul? (← v t.1))) e.constant

end LinExpr

def Substitution.rename (old new : String) : Substitution := .singleton old (.symbol new)

end LoopNest
