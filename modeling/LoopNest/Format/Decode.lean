import LoopNest.Json.Fields
import LoopNest.Json.Reader
import LoopNest.Pipeline

namespace LoopNest

open Json

/-- An object as a map keyed by names; the last member of a name counts. -/
def decodeMap {α : Type} (value : Decoder α) : Decoder (SortedMap String α) := fun j =>
  SortedMap.ofList <$> decodeMembers value j

/-- A list of pairs as a map; the last pair of a key counts. -/
def decodePairs {κ ν : Type} [Ord κ] [Std.TransOrd κ] (key : Decoder κ) (value : Decoder ν) :
    Decoder (SortedMap κ ν) := fun j =>
  SortedMap.ofList <$> decodeList (decodePair key value) j

def LinExpr.decode : Decoder LinExpr :=
  (LinExpr.mk <$> .optional "constant" decodeInt 0
    <*> .optional "terms" (decodeMap decodeInt) .empty : Fields LinExpr).decode

/-- A region is named by its variant; its thicknesses are a record. -/
def Region.decode : Decoder Region := fun j =>
  match variant? j with
  | some ("left", j) => (Region.left <$> Fields.required "thickness" LinExpr.decode).decode j
  | some ("middle", j) =>
    (Region.middle <$> Fields.required "thickness_left" LinExpr.decode
      <*> .required "thickness_right" LinExpr.decode).decode j
  | some ("right", j) => (Region.right <$> Fields.required "thickness" LinExpr.decode).decode j
  | _ => .error .malformed

namespace Dimension

inductive Derivation where
  | basic
  | block (parent : Dimension) (min max step : LinExpr)
  | sub (parent : Dimension) (region : Region)

def Derivation.named (name : String) : Derivation → Dimension
  | basic => .basic name
  | block parent min max step => .block name parent min max step
  | sub parent region => .sub name parent region

def tag : Tag := ⟨"type", ["basic", "block", "sub"]⟩

/-- A derivation, given how its parent decodes. -/
def decodeDerivation (byPlace : Bool) (parent : Decoder Dimension) : Decoder Derivation := fun j =>
  match tag.split? byPlace j with
  | some ("basic", .array (_ :: _)) => .error .malformed
  | some ("basic", _) => .ok .basic
  | some ("block", j) =>
    (Derivation.block <$> Fields.required "parent" parent <*> .required "min" LinExpr.decode
      <*> .required "max" LinExpr.decode <*> .required "step" LinExpr.decode).decode j
  | some ("sub", j) =>
    (Derivation.sub <$> Fields.required "parent" parent
      <*> .required "region" Region.decode).decode j
  | _ => .error .malformed

/-- A dimension with a lineage of at most the given length. -/
def decodeWithin : Nat → Bool → Decoder Dimension
  | 0, _ => fun _ => .error .malformed
  | n + 1, byPlace =>
    ((fun name derivation => Derivation.named name derivation) <$>
      Fields.required "name" decodeString
      <*> .optional "kind" (decodeDerivation byPlace (decodeWithin n true)) .basic).decode

/-- A dimension, whose lineage is no longer than its value is deep; `byPlace` tells whether it
stands inside a tagged record. -/
def decode (byPlace : Bool) : Decoder Dimension := fun j =>
  decodeWithin (j.nesting + 1) byPlace j

end Dimension

def Interval.tag : Tag := ⟨"kind", ["closed", "null"]⟩

def Interval.decode : Decoder Interval := fun j =>
  match tag.split? false j with
  | some ("closed", j) =>
    (Interval.closed <$> Fields.required "dim" (Dimension.decode true)
      <*> .required "lower" LinExpr.decode <*> .required "upper" LinExpr.decode).decode j
  | some ("null", j) =>
    (Interval.null <$> Fields.required "dim" (Dimension.decode true)).decode j
  | _ => .error .malformed

def IntervalGroup.fields : Fields (List Interval × List (List Dimension)) :=
  Prod.mk <$> .required "intervals" (decodeList Interval.decode)
    <*> .optional "relations" (decodeList (decodeList (Dimension.decode false))) []

/-- A group is built anew, so that what decodes is ordered by its chains. -/
def IntervalGroup.decode : Decoder IntervalGroup := fun j => do
  let (intervals, relations) ← fields.decode j
  (build intervals relations).mapError DecodeError.rejected

def Direction.ofName? : String → Option Direction
  | "forward" => some forward
  | "backward" => some backward
  | _ => none

def Direction.decode : Decoder Direction := decodeName ofName?

def IterationInterval.decode : Decoder IterationInterval :=
  (IterationInterval.mk <$> Fields.required "interval" Interval.decode
    <*> .required "direction" Direction.decode).decode

def IterationSpace.decode : Decoder IterationSpace :=
  (IterationSpace.mk <$> Fields.required "intervals" IntervalGroup.decode
    <*> .optional "sub_iterators"
      (decodePairs (Dimension.decode false) (decodeList (Dimension.decode false))) .empty
    <*> .optional "directions" (decodePairs (Dimension.decode false) Direction.decode)
      .empty).decode

def DataSpace.decode : Decoder DataSpace :=
  (DataSpace.mk <$> Fields.required "intervals" IntervalGroup.decode
    <*> .optional "parts" (decodeMap IntervalGroup.decode) .empty).decode

def Property.ofName? (name : String) : Option Property :=
  [parallel, parallelIndep, sequential, tilable].find? (·.name = name)

def Property.decode : Decoder Property := decodeName ofName?

def Properties.decode : Decoder Properties := fun j =>
  Properties.mk <$> decodePairs (Dimension.decode false)
    (fun j => SortedSet.ofList <$> decodeList Property.decode j) j

def Access.decode : Decoder Access :=
  (Access.mk <$> Fields.required "array" decodeString
    <*> .required "indices" (decodeList LinExpr.decode)).decode

mutual

def Expr.decode : Json → Except DecodeError Expr
  | .object [("int", j)] => Expr.int <$> decodeInt j
  | .object [("symbol", j)] => Expr.symbol <$> decodeString j
  | .object [("access", j)] => Expr.access <$> Access.decode j
  | .object [("add", .array items)] => Expr.add <$> Expr.decodeAll items
  | .object [("mul", .array items)] => Expr.mul <$> Expr.decodeAll items
  | .object [("neg", j)] => Expr.neg <$> Expr.decode j
  | _ => .error .malformed

def Expr.decodeAll : List Json → Except DecodeError (List Expr)
  | [] => .ok []
  | j :: js => do return (← Expr.decode j) :: (← Expr.decodeAll js)

end

def Equation.decode : Decoder Equation :=
  (Equation.mk <$> Fields.required "lhs" Access.decode <*> .required "rhs" Expr.decode
    <*> .required "ispace" IterationSpace.decode
    <*> .optional "dspace" DataSpace.decode .empty).decode

def Cluster.decode : Decoder Cluster :=
  (Cluster.mk <$> Fields.required "exprs" (decodeList Equation.decode)
    <*> .required "ispace" IterationSpace.decode
    <*> .optional "dspace" DataSpace.decode .empty
    <*> .optional "properties" Properties.decode .empty).decode

def PassMode.decode : Decoder PassMode := fun j => do
  (parse (← decodeString j)).mapError DecodeError.rejected

def Config.decode : Decoder Config :=
  (Config.mk <$> Fields.optional "mode" PassMode.decode .advanced
    <*> .optional "block_levels" decodeSize 1
    <*> .optional "block_inner" decodeBool false
    <*> .optional "block_shape" (decodeOption (decodeList decodeInt)) none
    <*> .optional "grid_shape" (decodeOption (decodeList decodeInt)) none
    <*> .optional "exact_blocks" decodeBool false).decode

/-- Decodes the value that makes up a text. -/
def decodeText {α : Type} (value : Decoder α) (text : String) : Except DecodeError α := do
  let (j, complete) := Json.read text
  let a ← value j
  if complete then return a else throw .malformed

end LoopNest
