
namespace LoopNest

/-- Code written so far, with the indentation of the lines to come. -/
structure CodeWriter where
  output : String
  level : Nat
  unit : String
  atLineStart : Bool
deriving DecidableEq

namespace CodeWriter

/-- Nothing written yet; every level of indentation is one copy of `unit`. -/
def new (unit : String) : CodeWriter := ⟨"", 0, unit, true⟩

def indent (w : CodeWriter) : CodeWriter := { w with level := w.level + 1 }

def dedent (w : CodeWriter) : CodeWriter := { w with level := w.level - 1 }

def margin (w : CodeWriter) : String := String.join (List.replicate w.level w.unit)

/-- Writes one character; the first one of a line that is not empty is preceded by the margin. -/
def writeChar (w : CodeWriter) (c : Char) : CodeWriter :=
  if c = '\n' then { w with output := w.output.push c, atLineStart := true }
  else if w.atLineStart then
    { w with output := (w.output ++ w.margin).push c, atLineStart := false }
  else { w with output := w.output.push c }

def write (w : CodeWriter) (s : String) : CodeWriter := s.toList.foldl writeChar w

def writeLine (w : CodeWriter) (s : String) : CodeWriter := (w.write s).write "\n"

end CodeWriter
end LoopNest
