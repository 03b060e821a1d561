
namespace LoopNest

/-- The pieces between the separators; there is one more of them than there are separators. -/
def splitChars (sep : Char) : List Char → List (List Char)
  | [] => [[]]
  | c :: rest =>
    if c = sep then [] :: splitChars sep rest
    else match splitChars sep rest with
      | piece :: pieces => (c :: piece) :: pieces
      | [] => [[c]]

def splitAt (sep : Char) (s : String) : List String := (splitChars sep s.toList).map String.ofList

end LoopNest
