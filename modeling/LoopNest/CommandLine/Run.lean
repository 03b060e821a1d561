import LoopNest.CommandLine.Options
import LoopNest.Format.Decode
import LoopNest.Format.Encode
import LoopNest.Json.Printer
import LoopNest.Text.Listing
import LoopNest.Tree.Build
import LoopNest.Tree.Render

namespace LoopNest
namespace CommandLine

def versionText : String := "stencilopt 0.1.0"

def helpText : String :=
  "Usage: stencilopt [-o FILE] [--mode MODE] [--block-levels N] [--block-inner] " ++
    "[--block-shape N,..] [--config FILE] [--emit json|text|tree] [-v] [-q] FILE"

/-- The end of a run: an exit code with the chain of errors, or the text to write. -/
inductive Result where
  | failed (code : Nat) (errors : List String)
  | written (output : Option String) (text : String)
deriving DecidableEq

structure Report where
  warnings : List String
  result : Result
deriving DecidableEq

def quotePathChar (c : Char) : List Char :=
  match c with
  | '"' => ['\\', '"']
  | '\\' => ['\\', '\\']
  | '\n' => ['\\', 'n']
  | '\r' => ['\\', 'r']
  | '\t' => ['\\', 't']
  | '\x00' => ['\\', '0']
  | c =>
    if c.toNat < 0x20 ∨ c.toNat = 0x7f then
      "\\u\x7b".toList ++ Nat.toDigits 16 c.toNat ++ ['\x7d']
    else [c]

def quotePath (path : String) : String :=
  "\"" ++ String.ofList (path.toList.flatMap quotePathChar) ++ "\""

/-- The chain of a failure under a context. An overflow is not reported but ends the program. -/
def failure (context : List String) : Failure → Result
  | .overflow => .failed 101 []
  | .error e => .failed 1 (context ++ e.chain)

def plainError (message : String) : Result := .failed 1 [message]

def readClusters (read : String → Option String) (input : String) : Except Result (List Cluster) :=
  match read input with
  | none => .error (plainError s!"Failed to read input file: {quotePath input}")
  | some text =>
    match decodeText (Json.decodeList Cluster.decode) text with
    | .ok clusters => .ok clusters
    | .error _ => .error (plainError s!"Failed to parse Clusters from {quotePath input}")

def readConfig (read : String → Option String) : Option String → Except Result Config
  | none => .ok .standard
  | some path =>
    match read path with
    | none => .error (plainError s!"Failed to read config file: {quotePath path}")
    | some text =>
      match decodeText Config.decode text with
      | .ok config => .ok config
      | .error _ => .error (plainError s!"Invalid config file: {quotePath path}")

/-- The configuration of the file, overridden by the options, and checked. -/
def configOf (read : String → Option String) (o : Options) : Except Result Config := do
  let config ← readConfig read o.config
  let mode ← match o.mode with
    | none => pure config.mode
    | some s => (PassMode.parse s).mapError fun e => failure ["Invalid --mode"] (.error e)
  let config : Config := { config with
    mode
    blockLevels := o.blockLevels.getD config.blockLevels
    blockInner := o.blockInner || config.blockInner
    blockShape := o.blockShape.or config.blockShape }
  config.validate.mapError fun e => failure ["Invalid pipeline configuration"] (.error e)
  return config

def render (emit : Emit) (outcome : Outcome) : Except Result String :=
  match emit with
  | .json => .ok outcome.encode.pretty
  | .text =>
    let args := outcome.runtimeArgs.entries.map fun e => s!"\n{e.1} = {intText e.2}"
    .ok (Cluster.listings outcome.clusters standardWidth ++ String.join args)
  | .tree =>
    ((·.render) <$> Node.build outcome.clusters).mapError
      (failure ["Failed to build the loop nest"])

/-- The warnings of a run that the configuration leaves block sizes open in. -/
def warningsOf (o : Options) (config : Config) (outcome : Outcome) : List String :=
  match config.blockShape with
  | some shape =>
    if o.quiet then []
    else (Pipeline.unsized shape outcome.blockDimensions).map fun p =>
      s!"no block size given for `{p}`"
  | none => []

/-- Files are read through a function, so that the whole of a run is one value. Clusters are read
before the configuration. -/
def execute (read : String → Option String) (o : Options) : Report :=
  let prepared : Except Result (Config × Outcome) := do
    let clusters ← readClusters read o.input
    let config ← configOf read o
    return (config, ← (Pipeline.run config clusters).mapError (failure []))
  match prepared with
  | .error result => ⟨[], result⟩
  | .ok (config, outcome) =>
    ⟨warningsOf o config outcome, match render o.emit outcome with
      | .ok text => .written o.output text
      | .error result => result⟩

def causeLines : List String → List String
  | [cause] => ["    " ++ cause]
  | causes => causes.zipIdx.map fun c => s!"    {c.2}: {c.1}"

def errorLines : List String → List String
  | [] => []
  | [e] => ["Error: " ++ e]
  | e :: causes => ["Error: " ++ e, "", "Caused by:"] ++ causeLines causes

def writeError (path : String) : String := s!"Failed to write output file: {quotePath path}"

end CommandLine
end LoopNest
