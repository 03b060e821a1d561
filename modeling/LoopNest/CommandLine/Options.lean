import LoopNest.Text.Split
import LoopNest.Word

namespace LoopNest
namespace CommandLine

inductive Emit where
  | json
  | text
  | tree
deriving DecidableEq

def Emit.ofName? : String → Option Emit
  | "json" => some json
  | "text" => some text
  | "tree" => some tree
  | _ => none

inductive ValueOption where
  | output
  | mode
  | blockLevels
  | config
  | emit
deriving DecidableEq

def ValueOption.ofName? : String → Option ValueOption
  | "output" => some output
  | "mode" => some mode
  | "block-levels" => some blockLevels
  | "config" => some config
  | "emit" => some emit
  | _ => none

inductive Flag where
  | blockInner
  | verbose
  | quiet
  | version
  | help
deriving DecidableEq

def Flag.ofName? : String → Option Flag
  | "block-inner" => some blockInner
  | "verbose" => some verbose
  | "quiet" => some quiet
  | "version" => some version
  | "help" => some help
  | _ => none

def Flag.ofLetter? : Char → Option Flag
  | 'v' => some verbose
  | 'q' => some quiet
  | 'V' => some version
  | 'h' => some help
  | _ => none

/-- What the words have said so far. -/
structure Draft where
  input : Option String
  output : Option String
  mode : Option String
  blockLevels : Option Nat
  blockInner : Bool
  blockShape : Option (List Int64)
  config : Option String
  emit : Option Emit
  quiet : Bool
deriving DecidableEq

def Draft.empty : Draft := ⟨none, none, none, none, false, none, none, none, false⟩

structure Options where
  input : String
  output : Option String
  mode : Option String
  blockLevels : Option Nat
  blockInner : Bool
  blockShape : Option (List Int64)
  config : Option String
  emit : Emit
  quiet : Bool
deriving DecidableEq

inductive Stop where
  | usage
  | version
  | help
deriving DecidableEq

inductive Awaiting where
  | nothing
  /-- The value of an option, which must follow. -/
  | value (option : ValueOption)
  /-- Block sizes; `given` tells whether there has been one. -/
  | sizes (given : Bool)
deriving DecidableEq

def Awaiting.isIncomplete : Awaiting → Bool
  | value _ => true
  | sizes given => !given
  | nothing => false

def digitsValue? : List Char → Option Nat
  | [] => none
  | ds => if ds.all Char.isDigit then
      some (ds.foldl (fun n d => 10 * n + (d.toNat - '0'.toNat)) 0) else none

/-- A natural number below `2 ^ 64`, perhaps with a plus sign. -/
def sizeOf? (s : String) : Option Nat := do
  let n ← digitsValue? (match s.toList with
    | '+' :: ds => ds
    | ds => ds)
  if n < UInt64.size then some n else none

/-- A 64-bit integer, perhaps with a sign. -/
def intOf? (s : String) : Option Int64 :=
  match s.toList with
  | '-' :: ds => do Int64.ofInt? (-(← digitsValue? ds))
  | '+' :: ds => do Int64.ofInt? (← digitsValue? ds)
  | ds => do Int64.ofInt? (← digitsValue? ds)

def path? (s : String) : Option String := if s = "" then none else some s

def sizesOf? (s : String) : Option (List Int64) := (splitAt ',' s).mapM intOf?

def once {α : Type} (known new : Option α) : Except Stop (Option α) :=
  match known, new with
  | none, some a => .ok (some a)
  | _, _ => .error .usage

namespace Draft

def setFlag (d : Draft) : Flag → Except Stop Draft
  | .blockInner => if d.blockInner then .error .usage else .ok { d with blockInner := true }
  | .quiet => if d.quiet then .error .usage else .ok { d with quiet := true }
  | .verbose => .ok d
  | .version => .error .version
  | .help => .error .help

def setValue (d : Draft) (option : ValueOption) (s : String) : Except Stop Draft := do
  match option with
  | .output => return { d with output := ← once d.output (path? s) }
  | .mode => return { d with mode := ← once d.mode (some s) }
  | .blockLevels => return { d with blockLevels := ← once d.blockLevels (sizeOf? s) }
  | .config => return { d with config := ← once d.config (path? s) }
  | .emit => return { d with emit := ← once d.emit (Emit.ofName? s) }

def addSizes (d : Draft) (s : String) : Except Stop Draft :=
  match sizesOf? s with
  | some sizes => .ok { d with blockShape := some (d.blockShape.getD [] ++ sizes) }
  | none => .error .usage

def setInput (d : Draft) (s : String) : Except Stop Draft := do
  return { d with input := ← once d.input (path? s) }

/-- A long option, with the value joined to it if there is one. -/
def readLong (d : Draft) (name : String) (joined : Option String) :
    Except Stop (Draft × Awaiting) :=
  if name = "block-shape" then
    match joined with
    | some s => do return (← d.addSizes s, .nothing)
    | none => .ok (d, .sizes false)
  else match ValueOption.ofName? name, joined with
    | some option, some s => do return (← d.setValue option s, .nothing)
    | some option, none => .ok (d, .value option)
    | none, some _ => .error .usage
    | none, none => match Flag.ofName? name with
      | some flag => do return (← d.setFlag flag, .nothing)
      | none => .error .usage

/-- A word of letters, each a flag, of which the last may be the output option with its file. -/
def readLetters (d : Draft) : List Char → Except Stop (Draft × Awaiting)
  | [] => .ok (d, .nothing)
  | 'o' :: rest =>
    match rest with
    | [] => .ok (d, .value .output)
    | '=' :: file => do return (← d.setValue .output (String.ofList file), .nothing)
    | file => do return (← d.setValue .output (String.ofList file), .nothing)
  | c :: rest => do
    match Flag.ofLetter? c with
    | some flag => (← d.setFlag flag).readLetters rest
    | none => throw .usage

def readPlain (d : Draft) (awaiting : Awaiting) (s : String) : Except Stop (Draft × Awaiting) := do
  match awaiting with
  | .nothing => return (← d.setInput s, .nothing)
  | .value option => return (← d.setValue option s, .nothing)
  | .sizes _ => return (← d.addSizes s, .sizes true)

/-- The words in order. After `--` all of them are plain. -/
def readWords (d : Draft) (awaiting : Awaiting) : List String → Except Stop Draft
  | [] => if awaiting.isIncomplete then .error .usage else .ok d
  | word :: rest =>
    match word.toList with
    | ['-', '-'] =>
      if awaiting.isIncomplete then .error .usage else rest.foldlM setInput d
    | '-' :: '-' :: long =>
      if awaiting.isIncomplete then .error .usage
      else do
        let name := String.ofList (long.takeWhile (· ≠ '='))
        let joined := match long.dropWhile (· ≠ '=') with
          | _ :: value => some (String.ofList value)
          | [] => none
        let (d, awaiting) ← d.readLong name joined
        d.readWords awaiting rest
    | '-' :: c :: letters =>
      if awaiting.isIncomplete then .error .usage
      else do
        let (d, awaiting) ← d.readLetters (c :: letters)
        d.readWords awaiting rest
    | _ => do
      let (d, awaiting) ← d.readPlain awaiting word
      d.readWords awaiting rest

end Draft

/-- The options that the words of a command line give. They may come before or after the input file;
the value of an option follows it, or is joined to it by `=`. -/
def parse (words : List String) : Except Stop Options := do
  let d ← Draft.empty.readWords .nothing words
  match d.input with
  | some input => return ⟨input, d.output, d.mode, d.blockLevels, d.blockInner, d.blockShape,
      d.config, d.emit.getD .json, d.quiet⟩
  | none => throw .usage

end CommandLine
end LoopNest
