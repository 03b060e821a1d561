import LoopNest.Access
import LoopNest.SortedSet

namespace LoopNest

inductive Expr where
  | int (n : Int64)
  | symbol (s : String)
  | access (a : Access)
  | add (operands : List Expr)
  | mul (operands : List Expr)
  | neg (e : Expr)

namespace Expr

instance : Inhabited Expr := ⟨int 0⟩

mutual

def decEq : (e f : Expr) → Decidable (e = f)
  | int m, int n => decidable_of_iff (m = n) (by simp)
  | symbol s, symbol t => decidable_of_iff (s = t) (by simp)
  | access a, access b => decidable_of_iff (a = b) (by simp)
  | add es, add fs => have := decEqList es fs; decidable_of_iff (es = fs) (by simp)
  | mul es, mul fs => have := decEqList es fs; decidable_of_iff (es = fs) (by simp)
  | neg e, neg f => have := decEq e f; decidable_of_iff (e = f) (by simp)
  | int _, symbol _ | int _, access _ | int _, add _ | int _, mul _ | int _, neg _
  | symbol _, int _ | symbol _, access _ | symbol _, add _ | symbol _, mul _ | symbol _, neg _
  | access _, int _ | access _, symbol _ | access _, add _ | access _, mul _ | access _, neg _
  | add _, int _ | add _, symbol _ | add _, access _ | add _, mul _ | add _, neg _
  | mul _, int _ | mul _, symbol _ | mul _, access _ | mul _, add _ | mul _, neg _
  | neg _, int _ | neg _, symbol _ | neg _, access _ | neg _, add _ | neg _, mul _ =>
    isFalse (by simp)

def decEqList : (es fs : List Expr) → Decidable (es = fs)
  | [], [] => isTrue rfl
  | e :: es, f :: fs =>
    have := decEq e f
    have := decEqList es fs
    decidable_of_iff (e = f ∧ es = fs) (by simp)
  | [], _ :: _ | _ :: _, [] => isFalse (by simp)

end

instance : DecidableEq Expr := decEq

mutual

def accesses : Expr → List Access
  | int _ | symbol _ => []
  | access a => [a]
  | add operands | mul operands => accessesList operands
  | neg e => e.accesses

def accessesList : List Expr → List Access
  | [] => []
  | e :: es => e.accesses ++ accessesList es

end

mutual

/-- Replaces index variables inside the accesses; scalar symbols stay. -/
def substitute (mapping : Substitution) : Expr → Except Failure Expr
  | int n => .ok (int n)
  | symbol s => .ok (symbol s)
  | access a => access <$> a.substitute mapping
  | add operands => add <$> substituteList mapping operands
  | mul operands => mul <$> substituteList mapping operands
  | neg e => neg <$> e.substitute mapping

def substituteList (mapping : Substitution) : List Expr → Except Failure (List Expr)
  | [] => .ok []
  | e :: es => do return (← e.substitute mapping) :: (← substituteList mapping es)

end

mutual

/-- Sums stand in parentheses; products and negations do not. -/
def text : Expr → String
  | int n => intText n
  | symbol s => s
  | access a => a.text
  | add operands => "(" ++ " + ".intercalate (textList operands) ++ ")"
  | mul operands => "*".intercalate (textList operands)
  | neg e => "-" ++ e.text

def textList : List Expr → List String
  | [] => []
  | e :: es => e.text :: textList es

end

mutual

/-- The exact value, given the scalar symbols, the index variables and the array elements. -/
def denote (scalars indices : String → Int) (elements : String × List Int → Int) : Expr → Int
  | int n => n.toInt
  | symbol s => scalars s
  | access a => elements (a.element indices)
  | add operands => (denoteList scalars indices elements operands).foldr (· + ·) 0
  | mul operands => (denoteList scalars indices elements operands).foldr (· * ·) 1
  | neg e => -e.denote scalars indices elements

def denoteList (scalars indices : String → Int) (elements : String × List Int → Int) :
    List Expr → List Int
  | [] => []
  | e :: es => e.denote scalars indices elements :: denoteList scalars indices elements es

end

end Expr
end LoopNest
