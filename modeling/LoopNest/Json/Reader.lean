import LoopNest.Json.Basic

namespace LoopNest
namespace Json

def isSpace (c : Char) : Bool := c = ' ' ∨ c = '\t' ∨ c = '\n' ∨ c = '\r'

def skipSpace (cs : List Char) : List Char := cs.dropWhile isSpace

def natOfDigits (ds : List Char) : Nat := ds.foldl (fun n d => 10 * n + (d.toNat - '0'.toNat)) 0

/-- The least magnitude that rounds beyond the largest double. -/
def floatLimit : Nat := (1 <<< 1024) - (1 <<< 970)

/-- Whether `m * 10 ^ e` is beyond the range of floating point. -/
def beyondFloat (m : Nat) (e : Int) : Bool :=
  let digits : Int := (toString m).length
  if m = 0 ∨ digits + e < 300 then false
  else if 400 < digits + e then true
  else floatLimit * Nat.pow 10 (-e).toNat ≤ m * Nat.pow 10 e.toNat

/-- The exponent part, if there is one; an exponent needs digits. -/
def readExponent : List Char → Option (Option Int × List Char)
  | c :: rest =>
    if c = 'e' ∨ c = 'E' then
      let (negative, rest) := match rest with
        | '-' :: r => (true, r)
        | '+' :: r => (false, r)
        | r => (false, r)
      match rest.takeWhile Char.isDigit with
      | [] => none
      | ds =>
        let n : Int := natOfDigits ds
        some (some (if negative then -n else n), rest.dropWhile Char.isDigit)
    else some (none, c :: rest)
  | [] => some (none, [])

/-- The digits of the fraction part, if there is one; a point needs digits. -/
def readFraction : List Char → Option (List Char × List Char)
  | '.' :: rest =>
    match rest.takeWhile Char.isDigit with
    | [] => none
    | ds => some (ds, rest.dropWhile Char.isDigit)
  | rest => some ([], rest)

/-- The digits before the point; only zero itself begins with a zero. -/
def readWhole (cs : List Char) : Option (List Char × List Char) :=
  match cs.takeWhile Char.isDigit with
  | [] | '0' :: _ :: _ => none
  | ds => some (ds, cs.dropWhile Char.isDigit)

/-- The value of a number: an integer if it is written as one. -/
def numberValue (negative : Bool) (digits fraction : List Char) (exponent : Option Int) : Json :=
  let m := natOfDigits (digits ++ fraction)
  if beyondFloat m (exponent.getD 0 - fraction.length) then unreadable
  else if fraction = [] ∧ exponent = none ∧ ¬(negative ∧ m = 0) then
    int (if negative then -m else m)
  else real

def readNumber (negative : Bool) (cs : List Char) : Option (Json × List Char) := do
  let (digits, rest) ← readWhole cs
  let (fraction, rest) ← readFraction rest
  let (exponent, rest) ← readExponent rest
  return (numberValue negative digits fraction exponent, rest)

def hexValue? (c : Char) : Option Nat :=
  if c.isDigit then some (c.toNat - '0'.toNat)
  else if 'a' ≤ c ∧ c ≤ 'f' then some (c.toNat - 'a'.toNat + 10)
  else if 'A' ≤ c ∧ c ≤ 'F' then some (c.toNat - 'A'.toNat + 10)
  else none

def escape? : Char → Option Char
  | '"' => some '"'
  | '\\' => some '\\'
  | '/' => some '/'
  | 'b' => some '\x08'
  | 'f' => some '\x0c'
  | 'n' => some '\n'
  | 'r' => some '\r'
  | 't' => some '\t'
  | _ => none

/-- The code units up to the closing quote, with what follows it. -/
def readUnits : List Char → Option (List Nat × List Char)
  | '"' :: rest => some ([], rest)
  | '\\' :: 'u' :: a :: b :: c :: d :: rest => do
    let unit := 4096 * (← hexValue? a) + 256 * (← hexValue? b) + 16 * (← hexValue? c) +
      (← hexValue? d)
    let (units, rest) ← readUnits rest
    return (unit :: units, rest)
  | '\\' :: c :: rest => do
    let c ← escape? c
    let (units, rest) ← readUnits rest
    return (c.toNat :: units, rest)
  | c :: rest =>
    if c.toNat < 0x20 then none
    else do
      let (units, rest) ← readUnits rest
      return (c.toNat :: units, rest)
  | [] => none

/-- The characters of the code units; the halves of a surrogate pair must stand together. -/
def charsOfUnits : List Nat → Option (List Char)
  | [] => some []
  | u :: rest =>
    if 0xd800 ≤ u ∧ u ≤ 0xdbff then
      match rest with
      | v :: rest =>
        if 0xdc00 ≤ v ∧ v ≤ 0xdfff then
          (Char.ofNat (0x10000 + 1024 * (u - 0xd800) + (v - 0xdc00)) :: ·) <$> charsOfUnits rest
        else none
      | [] => none
    else if 0xdc00 ≤ u ∧ u ≤ 0xdfff then none
    else (Char.ofNat u :: ·) <$> charsOfUnits rest

/-- A string after its opening quote, `none` for one without a value, with what follows. -/
def readString (cs : List Char) : Option (Option String × List Char) :=
  (readUnits cs).map fun (units, rest) => ((charsOfUnits units).map String.ofList, rest)

def arrayOf (tooDeep : Bool) (items : List Json) (rest : Option (List Char)) : Json :=
  if !tooDeep then array items else if rest.isSome then unreadable else cut

/-- The object of the members read. A name without a value makes the whole of it unreadable. -/
def objectOf (tooDeep : Bool) (members : List (Option String × Json))
    (rest : Option (List Char)) : Json :=
  match if tooDeep then none else members.mapM fun m => m.1.map (·, m.2) with
  | some members => object members
  | none => if rest.isSome then unreadable else cut

mutual

/-- A value with what follows it, or with nothing where the text stops being JSON. The first number
bounds the steps, the second is how many containers may still be nested. -/
def readValue : Nat → Nat → List Char → Json × Option (List Char)
  | 0, _, _ => (cut, none)
  | steps + 1, depth, cs =>
    match skipSpace cs with
    | 'n' :: 'u' :: 'l' :: 'l' :: rest => (null, some rest)
    | 't' :: 'r' :: 'u' :: 'e' :: rest => (bool true, some rest)
    | 'f' :: 'a' :: 'l' :: 's' :: 'e' :: rest => (bool false, some rest)
    | '"' :: rest =>
      match readString rest with
      | some (some s, rest) => (string s, some rest)
      | some (none, rest) => (unreadable, some rest)
      | none => (cut, none)
    | '[' :: rest =>
      let (items, rest) := match skipSpace rest with
        | ']' :: rest => ([], some rest)
        | rest => readItems steps (depth - 1) rest
      (arrayOf (depth = 0) items rest, rest)
    | '\x7b' :: rest =>
      let (members, rest) := match skipSpace rest with
        | '\x7d' :: rest => ([], some rest)
        | rest => readMembers steps (depth - 1) rest
      (objectOf (depth = 0) members rest, rest)
    | cs =>
      let found := match cs with
        | '-' :: rest => readNumber true rest
        | rest => readNumber false rest
      match found with
      | some (j, rest) => (j, some rest)
      | none => (cut, none)

def readItems : Nat → Nat → List Char → List Json × Option (List Char)
  | 0, _, _ => ([cut], none)
  | steps + 1, depth, cs =>
    match readValue steps depth cs with
    | (j, none) => ([j], none)
    | (j, some rest) =>
      match skipSpace rest with
      | ',' :: rest =>
        let (items, rest) := readItems steps depth rest
        (j :: items, rest)
      | ']' :: rest => ([j], some rest)
      | _ => ([j, cut], none)

def readMembers : Nat → Nat → List Char → List (Option String × Json) × Option (List Char)
  | 0, _, _ => ([(some "", cut)], none)
  | steps + 1, depth, cs =>
    match skipSpace cs with
    | '"' :: rest =>
      match readString rest with
      | none => ([(some "", cut)], none)
      | some (name, rest) =>
        match skipSpace rest with
        | ':' :: rest =>
          match readValue steps depth rest with
          | (j, none) => ([(name, j)], none)
          | (j, some rest) =>
            match skipSpace rest with
            | ',' :: rest =>
              let (members, rest) := readMembers steps depth rest
              ((name, j) :: members, rest)
            | '\x7d' :: rest => ([(name, j)], some rest)
            | _ => ([(name, j), (some "", cut)], none)
        | _ => ([(some "", cut)], none)
    | _ => ([(some "", cut)], none)

end

def maxNesting : Nat := 127

/-- The value that a text begins with, and whether nothing but blanks follows it. The reader is
strict: no leading zeros, no control characters inside strings, and no more than `maxNesting`
containers in one another. -/
def read (text : String) : Json × Bool :=
  let cs := text.toList
  let (j, rest) := readValue (2 * cs.length + 2) maxNesting cs
  (j, rest.any fun rest => skipSpace rest = [])

end Json
end LoopNest
