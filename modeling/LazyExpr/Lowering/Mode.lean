namespace LazyExpr

/-- A request for code that cannot be met whatever the expression. -/
inductive ModeError
  | nothingPermitted
  | missingDetacher
  deriving DecidableEq

def ModeError.message : ModeError → String
  | nothingPermitted => "compiler mode must permit boxing, suspension, or both"
  | missingDetacher => "a mode that permits suspension needs a detacher"

/-- What lowering may use to make a handle: wrapping computed values, waiting for pending ones, or both.
There is no mode that permits neither. -/
inductive Mode
  | general
  | avoidSuspension
  | preserveStreaming
  deriving DecidableEq, Inhabited

namespace Mode

/-- Every mode, the most permissive one first. -/
def all : List Mode := [general, avoidSuspension, preserveStreaming]

def of (boxing suspension : Bool) : Except ModeError Mode :=
  match boxing, suspension with
  | true, true => .ok general
  | true, false => .ok avoidSuspension
  | false, true => .ok preserveStreaming
  | false, false => .error .nothingPermitted

def allowsBoxing : Mode → Bool
  | preserveStreaming => false
  | _ => true

def allowsSuspension : Mode → Bool
  | avoidSuspension => false
  | _ => true

/-- The inclusion of permissions: all that `b` permits `a` permits too. -/
def permitsAllOf (a b : Mode) : Bool :=
  (a.allowsBoxing || !b.allowsBoxing) && (a.allowsSuspension || !b.allowsSuspension)

def name : Mode → String
  | general => "general"
  | avoidSuspension => "avoid-suspension"
  | preserveStreaming => "preserve-streaming"

/-- Without somebody to number the suspension points, only a mode without suspension can be used. -/
def withDetacher (mode : Mode) (detacher : Bool) : Except ModeError Mode :=
  if mode.allowsSuspension && !detacher then .error .missingDetacher else .ok mode

theorem of_allows (mode : Mode) : of mode.allowsBoxing mode.allowsSuspension = .ok mode := by
  cases mode <;> rfl

end Mode

end LazyExpr
