import LoopNest.Json.Basic

namespace LoopNest
namespace Json

def hexDigit (n : Nat) : Char := Char.ofNat (if n < 10 then 48 + n else 87 + n)

/-- Quotes, backslashes and control characters are escaped, all else stands for itself. -/
def quoteChar (c : Char) : List Char :=
  match c with
  | '"' => ['\\', '"']
  | '\\' => ['\\', '\\']
  | '\x08' => ['\\', 'b']
  | '\x0c' => ['\\', 'f']
  | '\n' => ['\\', 'n']
  | '\r' => ['\\', 'r']
  | '\t' => ['\\', 't']
  | c =>
    if c.toNat < 0x20 then
      ['\\', 'u', '0', '0', hexDigit (c.toNat / 16), hexDigit (c.toNat % 16)]
    else [c]

def quote (s : String) : String :=
  "\"" ++ String.ofList (s.toList.flatMap quoteChar) ++ "\""

mutual

def compact : Json → String
  | null | real | unreadable | cut => "null"
  | bool b => if b then "true" else "false"
  | int n => toString n
  | string s => quote s
  | array items => "[" ++ ",".intercalate (compactItems items) ++ "]"
  | object members => "\x7b" ++ ",".intercalate (compactMembers members) ++ "\x7d"

def compactItems : List Json → List String
  | [] => []
  | j :: js => j.compact :: compactItems js

def compactMembers : List (String × Json) → List String
  | [] => []
  | (name, j) :: ms => (quote name ++ ":" ++ j.compact) :: compactMembers ms

end

/-- The items of a container on lines of their own, one level deeper than the brackets. -/
def enclose (opening closing : String) (margin : String) : List String → String
  | [] => opening ++ closing
  | items =>
    opening ++ "\n" ++ ",\n".intercalate (items.map (margin ++ "  " ++ ·)) ++ "\n" ++ margin ++
      closing

mutual

/-- The value over several lines, of which the margin precedes all but the first. -/
def prettyWithin (margin : String) : Json → String
  | null | real | unreadable | cut => "null"
  | bool b => if b then "true" else "false"
  | int n => toString n
  | string s => quote s
  | array items => enclose "[" "]" margin (prettyItems (margin ++ "  ") items)
  | object members => enclose "\x7b" "\x7d" margin (prettyMembers (margin ++ "  ") members)

def prettyItems (margin : String) : List Json → List String
  | [] => []
  | j :: js => j.prettyWithin margin :: prettyItems margin js

def prettyMembers (margin : String) : List (String × Json) → List String
  | [] => []
  | (name, j) :: ms => (quote name ++ ": " ++ j.prettyWithin margin) :: prettyMembers margin ms

end

def pretty (j : Json) : String := j.prettyWithin ""

end Json
end LoopNest
