import LoopNest.CommandLine.Run

namespace LoopNest
namespace CommandLine

def readFile? (path : String) : IO (Option String) := do
  try return some (← IO.FS.readFile path) catch _ => return none

def finish : Result → IO UInt32
  | .failed code errors => do
    for line in errorLines errors do IO.eprintln line
    return code.toUInt32
  | .written none text => do
    IO.println text
    return 0
  | .written (some path) text => do
    try
      IO.FS.writeFile path text
      return 0
    catch _ =>
      for line in errorLines [writeError path] do IO.eprintln line
      return 1

def perform (words : List String) : IO UInt32 := do
  match parse words with
  | .error .usage =>
    IO.eprintln helpText
    return 2
  | .error .version =>
    IO.println versionText
    return 0
  | .error .help =>
    IO.println helpText
    return 0
  | .ok options =>
    let input ← readFile? options.input
    let config ← match options.config with
      | some path => readFile? path
      | none => pure none
    let report := execute (fun path => if path = options.input then input else config) options
    for w in report.warnings do IO.eprintln s!"[WARN] {w}"
    finish report.result

end CommandLine
end LoopNest

def main (words : List String) : IO UInt32 := LoopNest.CommandLine.perform words
