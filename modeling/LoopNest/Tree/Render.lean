import LoopNest.Text.CodeWriter
import LoopNest.Tree.Basic

namespace LoopNest

/-- The bounds and the step as a loop in the direction of the traversal states them. -/
def LoopHead.text (h : LoopHead) : String :=
  let i := h.dim.name
  match h.direction with
  | .forward =>
    s!"for (int {i} = {h.lower.text}; {i} <= {h.upper.text}; {i} += {h.step.text})"
  | .backward =>
    s!"for (int {i} = {h.upper.text}; {i} >= {h.lower.text}; {i} -= {h.step.text})"

namespace Node

def parallelMark : String := "#pragma omp parallel for"

mutual

/-- Writes a node; the outermost parallel loop is marked, so `inParallel` tells whether a marked
loop is around it. -/
def write (inParallel : Bool) (w : CodeWriter) : Node → CodeWriter
  | loop head body =>
    let marked := head.isParallel && !inParallel
    let w := if marked then w.writeLine parallelMark else w
    let w := ((w.write head.text).writeLine " \x7b").indent
    (writeList (inParallel || marked) w body).dedent.writeLine "\x7d"
  | bundle equations => equations.foldl (fun w e => w.writeLine (e.text ++ ";")) w
  | call c =>
    w.writeLine (c.name ++ "(" ++ ", ".intercalate (c.args.map LinExpr.text) ++ ");")
  | list nodes => writeList inParallel w nodes
  | routine name parameters body =>
    let declared := ", ".intercalate (parameters.map ("const int " ++ ·))
    let w := ((w.write ("void " ++ name ++ "(" ++ declared ++ ")")).writeLine " \x7b").indent
    (writeList inParallel w body).dedent.writeLine "\x7d"

def writeList (inParallel : Bool) (w : CodeWriter) : List Node → CodeWriter
  | [] => w
  | n :: ns => writeList inParallel (n.write inParallel w) ns

end

def render (n : Node) : String := (n.write false (.new "  ")).output

end Node
end LoopNest
