
namespace LoopNest

inductive ConfigKind where
  | unknownPass
  | invalidBlockLevels
  | invalidBlockShape
  | invalidMode
deriving DecidableEq

def ConfigKind.name : ConfigKind → String
  | unknownPass => "UnknownPass"
  | invalidBlockLevels => "InvalidBlockLevels"
  | invalidBlockShape => "InvalidBlockShape"
  | invalidMode => "InvalidMode"

inductive InternalKind where
  | callbackNotImplemented
  | dimensionMismatch
  | imperfectNest
  | incomparableBounds
  | cyclicRelations
  | missingInterval
  | incompatibleSpaces
deriving DecidableEq

def InternalKind.name : InternalKind → String
  | callbackNotImplemented => "CallbackNotImplemented"
  | dimensionMismatch => "DimensionMismatch"
  | imperfectNest => "ImperfectNest"
  | incomparableBounds => "IncomparableBounds"
  | cyclicRelations => "CyclicRelations"
  | missingInterval => "MissingInterval"
  | incompatibleSpaces => "IncompatibleSpaces"

/-- A reported error, with the passes it came through. -/
inductive Error where
  | config (kind : ConfigKind) (message : String)
  | internal (kind : InternalKind) (message : String)
  | inPass (pass : String) (cause : Error)
deriving DecidableEq

namespace Error

/-- The text of an error: where it belongs, its message and its kind, under the passes it came
through. -/
def text : Error → String
  | config kind message => s!"Configuration error: {message} ({kind.name})"
  | internal kind message => s!"Internal error: {message} ({kind.name})"
  | inPass pass cause => s!"Pass `{pass}` failed: {cause.text}"

def internalKind? : Error → Option InternalKind
  | config _ _ => none
  | internal kind _ => some kind
  | inPass _ cause => cause.internalKind?

def configKind? : Error → Option ConfigKind
  | config kind _ => some kind
  | internal _ _ => none
  | inPass _ cause => cause.configKind?

def kindName : Error → String
  | config kind _ => kind.name
  | internal kind _ => kind.name
  | inPass _ cause => cause.kindName

/-- The text of the error followed by the texts of its causes, down to the bare message. -/
def chain : Error → List String
  | e@(config kind message) => [e.text, s!"{message} ({kind.name})"]
  | e@(internal kind message) => [e.text, s!"{message} ({kind.name})"]
  | e@(inPass _ cause) => e.text :: cause.chain

end Error

/-- Why a computation gives no result: an error to report, or an integer out of range. -/
inductive Failure where
  | overflow
  | error (e : Error)
deriving DecidableEq

namespace Failure

/-- The failure as seen from outside the named pass; an overflow stays what it is. -/
def inPass (pass : String) : Failure → Failure
  | overflow => overflow
  | error e => error (.inPass pass e)

end Failure

instance : MonadLift (Except Error) (Except Failure) where
  monadLift := Except.mapError Failure.error

def orOverflow {α : Type} : Option α → Except Failure α
  | some a => .ok a
  | none => .error .overflow

end LoopNest
