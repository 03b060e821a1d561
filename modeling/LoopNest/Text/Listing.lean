import LoopNest.Cluster

namespace LoopNest

def standardWidth : Nat := 80

namespace Properties

def listingColumn : Nat := 13

def brokenText (p : Properties) : String :=
  let entries := ",\n    ".intercalate p.entryTexts
  "\x7b\n" ++ (if p.isEmpty then "  " else "    ") ++ entries ++ "\n  \x7d"

/-- The tags on one line where they fit, else one entry per line. -/
def listing (p : Properties) (width : Nat) : String :=
  if listingColumn + p.text.length ≤ width then p.text else p.brokenText

end Properties

namespace Cluster

def listing (c : Cluster) (width : Nat) : String :=
  "Cluster " ++ c.ispace.text ++ "\n  properties " ++ c.properties.listing width ++
    String.join (c.equations.map fun e => "\n  " ++ e.text)

def listings (clusters : List Cluster) (width : Nat) : String :=
  "\n\n".intercalate (clusters.map (·.listing width))

end Cluster
end LoopNest
