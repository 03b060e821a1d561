import LoopNest.Failure
import LoopNest.Text.Blank
import LoopNest.Text.Split

namespace LoopNest

inductive PassMode where
  | noop
  | advanced
  | custom (passes : List String)
deriving DecidableEq, Inhabited

def knownPasses : List String :=
  ["toposort", "fuse", "topofuse", "blocking", "interchange", "remainder"]

namespace PassMode

def passes : PassMode → List String
  | noop => []
  | advanced => ["toposort", "fuse", "blocking", "interchange"]
  | custom passes => passes

def text : PassMode → String
  | noop => "noop"
  | advanced => "advanced"
  | custom passes => ",".intercalate passes

def parse (s : String) : Except Error PassMode :=
  let list := trim s
  if list = "" then .error (.config .invalidMode "empty pass mode")
  else if list = "noop" then .ok noop
  else if list = "advanced" then .ok advanced
  else
    let passes := (splitAt ',' list).map trim
    if "" ∈ passes then .error (.config .invalidMode s!"empty pass name in `{list}`")
    else .ok (custom passes)

end PassMode
end LoopNest
