
namespace LoopNest

/-- A value as read from a text: numbers are exact integers or nothing that is used, members keep
their order and their repetitions, and a text that breaks off leaves a value that breaks off. -/
inductive Json where
  | null
  | bool (b : Bool)
  | int (n : Int)
  /-- A number with a fraction or an exponent, or minus zero; no reader wants its value. -/
  | real
  | string (s : String)
  | array (items : List Json)
  | object (members : List (String × Json))
  /-- A well-formed text without a value: an unpaired surrogate, a number beyond the range of
  floating point, or a container nested too deeply. It can be passed over, but not read. -/
  | unreadable
  /-- The place where the text stops being JSON. It cannot even be passed over. -/
  | cut

namespace Json

instance : Inhabited Json := ⟨null⟩

mutual

/-- Whether the text of the value reaches its end. -/
def isWhole : Json → Bool
  | cut => false
  | array items => areWhole items
  | object members => membersWhole members
  | _ => true

def areWhole : List Json → Bool
  | [] => true
  | j :: js => j.isWhole && areWhole js

def membersWhole : List (String × Json) → Bool
  | [] => true
  | (_, j) :: ms => j.isWhole && membersWhole ms

end

mutual

def isReadable : Json → Bool
  | cut | unreadable => false
  | array items => areReadable items
  | object members => membersReadable members
  | _ => true

def areReadable : List Json → Bool
  | [] => true
  | j :: js => j.isReadable && areReadable js

def membersReadable : List (String × Json) → Bool
  | [] => true
  | (_, j) :: ms => j.isReadable && membersReadable ms

end

mutual

/-- The value in which of several members of one name only the last is left. -/
def lastMembers : Json → Json
  | array items => array (lastMembersList items)
  | object members => object (lastMembersOf members)
  | j => j

def lastMembersList : List Json → List Json
  | [] => []
  | j :: js => j.lastMembers :: lastMembersList js

def lastMembersOf : List (String × Json) → List (String × Json)
  | [] => []
  | (name, j) :: ms =>
    if ms.any (·.1 = name) then lastMembersOf ms else (name, j.lastMembers) :: lastMembersOf ms

end

mutual

def nesting : Json → Nat
  | array items => nestingOf items + 1
  | object members => nestingOfMembers members + 1
  | _ => 0

def nestingOf : List Json → Nat
  | [] => 0
  | j :: js => max j.nesting (nestingOf js)

def nestingOfMembers : List (String × Json) → Nat
  | [] => 0
  | (_, j) :: ms => max j.nesting (nestingOfMembers ms)

end

def member? (name : String) : Json → Option Json
  | object members => (members.find? (·.1 = name)).map Prod.snd
  | _ => none

end Json
end LoopNest
