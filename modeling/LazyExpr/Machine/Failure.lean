import LazyExpr.Source.Span
import LazyExpr.Tree.Operator
import LazyExpr.Value.Text

namespace LazyExpr

/-- What kind of failure ended a run. -/
inductive FailureKind
  | undefinedVariable
  | undefinedFunction
  | typeMismatch
  | arithmetic
  | nullAccess
  | notReady
  | alreadyResolved
  | resourceLimit
  | cancelled
  | host
  deriving DecidableEq

/-- A failure of a run. Hosts may raise any, point at a place in the source and name a cause. -/
structure Failure where
  kind : FailureKind
  message : String
  span : Option Span := none
  cause : Option String := none
  deriving DecidableEq

namespace Failure

/-- Text as it stands in source code, between backquotes. -/
def inCode (text : String) : String := "\x60" ++ text ++ "\x60"

def undefinedVariable (scope name : String) : Failure :=
  ⟨.undefinedVariable, "undefined variable: " ++ scope ++ ":" ++ name, none, none⟩

def undefinedFunction (name : String) : Failure :=
  ⟨.undefinedFunction, "undefined function: " ++ name, none, none⟩

def expected (wanted got : String) : Failure :=
  ⟨.typeMismatch, "expected " ++ wanted ++ ", got " ++ got, none, none⟩

def notUnary (op : Operator) : Failure :=
  ⟨.typeMismatch, inCode op.token ++ " is not a unary operator", none, none⟩

def notBinary (op : Operator) : Failure :=
  ⟨.typeMismatch, inCode op.token ++ " is not a binary operator", none, none⟩

def wrongCount (function : String) (wanted got : Nat) : Failure :=
  ⟨.typeMismatch, function ++ " expects " ++ toString wanted ++ " argument(s), got " ++ toString got,
    none, none⟩

def divisionByZero : Failure := ⟨.arithmetic, "division by zero", none, none⟩

def overflow : Failure := ⟨.arithmetic, "integer overflow", none, none⟩

def nullAccess (key : String) (base : Value) : Failure :=
  ⟨.nullAccess, "cannot read " ++ inCode key ++ " of " ++ base.typeName, none, none⟩

def assertionFailed (value : Value) : Failure :=
  ⟨.nullAccess, "non-null assertion failed: value is " ++ value.typeName, none, none⟩

def notReady : Failure :=
  ⟨.notReady, "lazy value resolved before it was ready and outside a suspension point", none, none⟩

/-- A suspension point is written with a number sign. -/
def pointText (point : Nat) : String := "#" ++ toString point

def stillPending (point : Nat) : Failure :=
  ⟨.notReady, "resumed at " ++ pointText point ++ " but the awaited value is still pending", none, none⟩

def detachedWithoutDriver (source : String) (span : Span) (point : Nat) : Failure :=
  ⟨.notReady, inCode source ++ " detached at " ++ pointText point ++ " with no driver to resume it",
    some span, none⟩

def alreadyResolved : Failure := ⟨.alreadyResolved, "lazy value completed twice", none, none⟩

def tooManyInstructions (limit : Nat) : Failure :=
  ⟨.resourceLimit, "run exceeded maximum of " ++ toString limit ++ " instructions", none, none⟩

def cancelled : Failure := ⟨.cancelled, "run cancelled", none, none⟩

def unwritten (register : Nat) : Failure :=
  ⟨.host, "register r" ++ toString register ++ " read before it was written", none, none⟩

end Failure

end LazyExpr
