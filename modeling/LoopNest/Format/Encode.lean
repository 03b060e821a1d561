import LoopNest.Json.Basic
import LoopNest.Pipeline

namespace LoopNest

def encodeInt (n : Int64) : Json := .int n.toInt

/-- A map keyed by names, as an object. -/
def encodeMap {α : Type} (value : α → Json) (m : SortedMap String α) : Json :=
  .object (m.entries.map fun e => (e.1, value e.2))

/-- A map keyed by anything else, as a list of pairs. -/
def encodePairs {κ ν : Type} [Ord κ] (key : κ → Json) (value : ν → Json) (m : SortedMap κ ν) :
    Json :=
  .array (m.entries.map fun e => .array [key e.1, value e.2])

def encodeList {α : Type} (item : α → Json) (l : List α) : Json := .array (l.map item)

def encodeOption {α : Type} (value : α → Json) : Option α → Json
  | some a => value a
  | none => .null

def LinExpr.encode (e : LinExpr) : Json :=
  .object [("constant", encodeInt e.constant), ("terms", encodeMap encodeInt e.terms)]

def Region.encode : Region → Json
  | left t => .object [("left", .object [("thickness", t.encode)])]
  | middle l r =>
    .object [("middle", .object [("thickness_left", l.encode), ("thickness_right", r.encode)])]
  | right t => .object [("right", .object [("thickness", t.encode)])]

def Dimension.encode : Dimension → Json
  | basic name =>
    .object [("name", .string name), ("kind", .object [("type", .string "basic")])]
  | block name parent min max step =>
    .object [("name", .string name), ("kind", .object [("type", .string "block"),
      ("parent", parent.encode), ("min", min.encode), ("max", max.encode),
      ("step", step.encode)])]
  | sub name parent region =>
    .object [("name", .string name), ("kind", .object [("type", .string "sub"),
      ("parent", parent.encode), ("region", region.encode)])]

def Interval.encode : Interval → Json
  | closed dim lower upper => .object [("kind", .string "closed"), ("dim", dim.encode),
      ("lower", lower.encode), ("upper", upper.encode)]
  | null dim => .object [("kind", .string "null"), ("dim", dim.encode)]

def IntervalGroup.encode (g : IntervalGroup) : Json :=
  .object [("intervals", encodeList Interval.encode g.intervals),
    ("relations", encodeList (encodeList Dimension.encode) g.relations.toList)]

def Direction.encode : Direction → Json
  | forward => .string "forward"
  | backward => .string "backward"

def IterationInterval.encode (l : IterationInterval) : Json :=
  .object [("interval", l.interval.encode), ("direction", l.direction.encode)]

def IterationSpace.encode (s : IterationSpace) : Json :=
  .object [("intervals", s.intervals.encode),
    ("sub_iterators", encodePairs Dimension.encode (encodeList Dimension.encode) s.subIterators),
    ("directions", encodePairs Dimension.encode Direction.encode s.directions)]

def DataSpace.encode (s : DataSpace) : Json :=
  .object [("intervals", s.intervals.encode), ("parts", encodeMap IntervalGroup.encode s.parts)]

def Property.encode (p : Property) : Json := .string p.name

def Properties.encode (p : Properties) : Json :=
  encodePairs Dimension.encode (fun tags => encodeList Property.encode tags.toList) p.tags

def Access.encode (a : Access) : Json :=
  .object [("array", .string a.array), ("indices", encodeList LinExpr.encode a.indices)]

mutual

def Expr.encode : Expr → Json
  | .int n => .object [("int", encodeInt n)]
  | .symbol s => .object [("symbol", .string s)]
  | .access a => .object [("access", a.encode)]
  | .add operands => .object [("add", .array (Expr.encodeAll operands))]
  | .mul operands => .object [("mul", .array (Expr.encodeAll operands))]
  | .neg e => .object [("neg", e.encode)]

def Expr.encodeAll : List Expr → List Json
  | [] => []
  | e :: es => e.encode :: Expr.encodeAll es

end

def Equation.encode (e : Equation) : Json :=
  .object [("lhs", e.lhs.encode), ("rhs", e.rhs.encode), ("ispace", e.ispace.encode),
    ("dspace", e.dspace.encode)]

def Cluster.encode (c : Cluster) : Json :=
  .object [("exprs", encodeList Equation.encode c.equations), ("ispace", c.ispace.encode),
    ("dspace", c.dspace.encode), ("properties", c.properties.encode)]

def Config.encode (c : Config) : Json :=
  .object [("mode", .string c.mode.text), ("block_levels", .int c.blockLevels),
    ("block_inner", .bool c.blockInner),
    ("block_shape", encodeOption (encodeList encodeInt) c.blockShape),
    ("grid_shape", encodeOption (encodeList encodeInt) c.gridShape),
    ("exact_blocks", .bool c.exactBlocks)]

def Outcome.encode (o : Outcome) : Json :=
  .object [("clusters", encodeList Cluster.encode o.clusters),
    ("applied_passes", encodeList .string o.appliedPasses), ("modified", .bool o.modified),
    ("block_dimensions", encodeList Dimension.encode o.blockDimensions),
    ("runtime_args", encodeMap encodeInt o.runtimeArgs)]

end LoopNest
