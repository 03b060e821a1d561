import LoopNest.LinExpr.Text
import LoopNest.PassMode

namespace LoopNest

/-- What to run, how to block, and the block sizes with the grid they have to fit. -/
structure Config where
  mode : PassMode
  blockLevels : Nat
  blockInner : Bool
  blockShape : Option (List Int64)
  gridShape : Option (List Int64)
  exactBlocks : Bool
deriving DecidableEq

namespace Config

/-- The default sequence of passes with one level of blocks. -/
def standard : Config := ⟨.advanced, 1, false, none, none, false⟩

instance : Inhabited Config := ⟨standard⟩

def noop : Config := { standard with mode := .noop }

/-- Everything blocked, for cache locality. -/
def forLocality : Config := { standard with blockInner := true }

/-- Outer parallelism without blocks. -/
def forParallelism : Config := { standard with mode := .custom ["topofuse", "interchange"] }

def maxBlockLevels : Nat := 8

def shapeText (shape : List Int64) : String := "[" ++ ", ".intercalate (shape.map intText) ++ "]"

def unknownPass (pass : String) : Error :=
  let known := ", ".intercalate knownPasses
  .config .unknownPass s!"unknown pass `{pass}` (known: {known})"

/-- The block sizes are positive and, where a grid is given, match its dimensions. With exact blocks
there is a grid, and every size divides its extent. -/
def validateShape (c : Config) (shape : List Int64) : Except Error Unit :=
  let invalid (message : String) : Except Error Unit := .error (.config .invalidBlockShape message)
  match shape.find? (· ≤ 0) with
  | some bad => invalid s!"block size {intText bad} is not positive"
  | none =>
    match c.gridShape with
    | none =>
      if c.exactBlocks then invalid "exact blocks requested without a grid shape" else .ok ()
    | some grid =>
      if grid.length ≠ shape.length then
        invalid s!"block shape {shapeText shape} does not match grid shape {shapeText grid}"
      else if c.exactBlocks then
        match (shape.zip grid).find? fun p => p.2.toInt.tmod p.1.toInt ≠ 0 with
        | some (b, g) =>
          invalid s!"block size {intText b} does not divide grid extent {intText g}"
        | none => .ok ()
      else .ok ()

def validate (c : Config) : Except Error Unit := do
  match c.mode.passes.find? (· ∉ knownPasses) with
  | some pass => throw (unknownPass pass)
  | none => pure ()
  if maxBlockLevels < c.blockLevels then
    throw (.config .invalidBlockLevels
      s!"{c.blockLevels} block levels requested, at most {maxBlockLevels} supported")
  match c.blockShape with
  | some shape => c.validateShape shape
  | none => pure ()

end Config
end LoopNest
