import LoopNest.Failure
import LoopNest.Json.Basic
import LoopNest.Word

namespace LoopNest

inductive DecodeError where
  /-- The text or the shape of the value is wrong. -/
  | malformed
  /-- The shape is right, but the value it describes is refused. -/
  | rejected (e : Error)
deriving DecidableEq

abbrev Decoder (α : Type) := Json → Except DecodeError α

namespace Json

def decodeString : Decoder String
  | string s => .ok s
  | _ => .error .malformed

def decodeBool : Decoder Bool
  | bool b => .ok b
  | _ => .error .malformed

def decodeInt : Decoder Int64
  | int n => match Int64.ofInt? n with
    | some w => .ok w
    | none => .error .malformed
  | _ => .error .malformed

/-- A natural number below `2 ^ 64`. -/
def decodeSize : Decoder Nat
  | int n => if 0 ≤ n ∧ n.toNat < UInt64.size then .ok n.toNat else .error .malformed
  | _ => .error .malformed

def decodeList {α : Type} (item : Decoder α) : Decoder (List α)
  | array items => items.mapM item
  | _ => .error .malformed

def decodeOption {α : Type} (value : Decoder α) : Decoder (Option α)
  | null => .ok none
  | j => some <$> value j

def decodePair {α β : Type} (first : Decoder α) (second : Decoder β) : Decoder (α × β)
  | array (a :: b :: rest) => do
    let pair := (← first a, ← second b)
    if rest.isEmpty then return pair else throw .malformed
  | array [a] => do
    let _ ← first a
    throw .malformed
  | _ => .error .malformed

def decodeMembers {α : Type} (value : Decoder α) : Decoder (List (String × α))
  | object members => members.mapM fun m => (m.1, ·) <$> value m.2
  | _ => .error .malformed

/-- A variant that holds a value: an object whose one member is named for it. -/
def variant? : Json → Option (String × Json)
  | object [m] => some m
  | _ => none

/-- A variant that holds nothing: its name, alone or as the one member of an object, with `null`. -/
def decodeName {α : Type} (ofName? : String → Option α) : Decoder α := fun j =>
  let name? := match j with
    | string s => some s
    | object [(s, null)] => some s
    | _ => none
  match name?.bind ofName? with
  | some a => .ok a
  | none => .error .malformed

end Json

/-- A result, or a fault with its place among the members of a record. -/
abbrev Placed (α : Type) := Except (Nat × DecodeError) α

def Placed.both {α β : Type} (x : Placed α) (y : Placed β) : Placed (α × β) :=
  match x, y with
  | .ok a, .ok b => .ok (a, b)
  | .error e, .error f => .error (if f.1 < e.1 then f else e)
  | .error e, .ok _ => .error e
  | .ok _, .error f => .error f

/-- Part of a record: the names of the fields in order and how to read them from the members. A
record may be written as an object or as the array of its fields; of several faults in it the first
in reading order is reported. -/
structure Fields (α : Type) where
  names : List String
  read : List (String × Json) → Placed α

namespace Fields

instance : Applicative Fields where
  pure a := ⟨[], fun _ => .ok a⟩
  seq f x := ⟨f.names ++ (x ()).names, fun ms =>
    ((f.read ms).both ((x ()).read ms)).map fun p => p.1 p.2⟩

def occurrences (name : String) (members : List (String × Json)) : List (Nat × Json) :=
  (members.zipIdx.filter (·.1.1 = name)).map fun m => (m.2, m.1.2)

/-- A field that may occur at most once. Without it the record has the default, if there is one. -/
def field {α : Type} (name : String) (value : Decoder α) (default? : Option α) : Fields α where
  names := [name]
  read members :=
    match occurrences name members with
    | [] => match default? with
      | some a => .ok a
      | none => .error (members.length, .malformed)
    | (place, j) :: more =>
      match value j, more with
      | .error e, _ => .error (place, e)
      | .ok a, [] => .ok a
      | .ok _, (again, _) :: _ => .error (again, .malformed)

def required {α : Type} (name : String) (value : Decoder α) : Fields α := field name value none

def optional {α : Type} (name : String) (value : Decoder α) (default : α) : Fields α :=
  field name value (some default)

/-- The members of a record; items of an array beyond the fields are a fault in their place. -/
def members? (names : List String) : Json → Option (List (String × Json))
  | .object members => some members
  | .array items =>
    let extra := items.drop names.length
    some (names.zip items ++ extra.map fun _ => ("", .cut))
  | _ => none

/-- Members of other names are passed over, unless the text breaks off there. -/
def passOthers (names : List String) (members : List (String × Json)) : Placed Unit :=
  match members.findIdx? fun m => m.1 ∉ names ∧ !m.2.isWhole with
  | some place => .error (place, .malformed)
  | none => .ok ()

def decode {α : Type} (f : Fields α) : Decoder α := fun j =>
  match members? f.names j with
  | none => .error .malformed
  | some members =>
    match (f.read members).both (passOthers f.names members) with
    | .ok (a, _) => .ok a
    | .error (_, e) => .error e

end Fields

/-- The names of the variants of a tagged record in order. Inside another tagged record a variant
may also be named by its place. -/
structure Tag where
  key : String
  variants : List String

namespace Tag

def variantOf? (t : Tag) (byPlace : Bool) : Json → Option String
  | .string s => if s ∈ t.variants then some s else none
  | .int n => if byPlace ∧ 0 ≤ n then t.variants[n.toNat]? else none
  | _ => none

/-- Splits a tagged record, all of which must be readable, into its variant and the other fields. As
an array it begins with the tag. -/
def split? (t : Tag) (byPlace : Bool) (j : Json) : Option (String × Json) :=
  if !j.isReadable then none
  else match j with
    | .object members =>
      match members.partition (·.1 = t.key) with
      | ([tag], others) => (t.variantOf? byPlace tag.2).map (·, .object others)
      | _ => none
    | .array (tag :: rest) => (t.variantOf? byPlace tag).map (·, .array rest)
    | _ => none

end Tag
end LoopNest
