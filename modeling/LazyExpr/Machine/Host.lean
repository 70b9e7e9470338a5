import LazyExpr.Machine.Handle

namespace LazyExpr

/-- What the host gets to see of a run. -/
inductive Event
  | param (name : String)
  | binding (name : String)
  | call (name : String) (args : List Value)

/-- The events so far, in order. -/
abbrev Log := List Event

/-- The types that parameters of a function can ask for. -/
inductive ParameterType
  | string
  | int
  | number
  | bool
  | list
  | any
  deriving DecidableEq

def ParameterType.name : ParameterType → String
  | string => "String"
  | int => "Int"
  | number => "Number"
  | bool => "Bool"
  | list => "List"
  | any => "Any"

def ParameterType.accepts : ParameterType → Value → Bool
  | any, _ => true
  | string, .string _ => true
  | int, .int _ => true
  | number, .int _ => true
  | number, .float _ => true
  | bool, .bool _ => true
  | list, .list _ => true
  | _, _ => false

structure Parameter where
  name : String
  type : Option ParameterType
  required : Bool
  deriving DecidableEq

/-- What a function asks of its arguments. A variadic one takes more of them than it has parameters. -/
structure Signature where
  name : String
  parameters : List Parameter := []
  variadic : Bool := true
  deriving DecidableEq

namespace Signature

/-- Adds a required parameter of a type; from then on the number of arguments is fixed. -/
def withParameter (s : Signature) (name : String) (type : ParameterType) : Signature :=
  { s with parameters := s.parameters ++ [⟨name, some type, true⟩], variadic := false }

def requiredCount (s : Signature) : Nat := (s.parameters.filter (·.required)).length

/-- The first argument that is not of the type its parameter asks for. -/
def checkTypes (function : String) : List Parameter → List Value → Outcome Unit
  | parameter :: parameters, arg :: args =>
    match parameter.type with
    | some type =>
      if type.accepts arg then checkTypes function parameters args
      else .error (.expected
        (type.name ++ " for " ++ Failure.inCode parameter.name ++ " of " ++ function) arg.typeName)
    | none => checkTypes function parameters args
  | _, _ => .ok ()

/-- The number of arguments is checked first, then their types. -/
def validate (s : Signature) (args : List Value) : Outcome Unit :=
  if args.length < s.requiredCount ∨ (s.variadic = false ∧ s.parameters.length < args.length) then
    .error (.wrongCount s.name s.parameters.length args.length)
  else checkTypes s.name s.parameters args

end Signature

/-- A function of the host. Its answer may depend on what happened before. -/
structure Function where
  signature : Signature
  body : Log → List Value → Outcome Value

/-- The registered functions, the latest first. -/
abbrev Registry := List Function

namespace Registry

def register (r : Registry) (f : Function) : Registry := f :: r

/-- The latest function of that name. -/
def find? (r : Registry) (name : String) : Option Function :=
  List.find? (fun f => f.signature.name == name) r

def contains (r : Registry) (name : String) : Bool := (r.find? name).isSome

/-- A call reaches the function, and the log, only if the arguments fit its signature. -/
def call (r : Registry) (log : Log) (name : String) (args : List Value) : Outcome Value × Log :=
  match r.find? name with
  | none => (.error (.undefinedFunction name), log)
  | some f =>
    match f.signature.validate args with
    | .error failure => (.error failure, log)
    | .ok () => (f.body log args, log ++ [.call name args])

end Registry

/-- The host of a run supplies the variables and the functions. What it answers may depend on what
happened before; `none` means that there is no such variable. -/
structure Host where
  param : Log → String → Outcome (Option Handle)
  binding : Log → String → Outcome (Option Slot)
  registry : Registry

namespace Host

/-- A host that keeps its variables in tables, later entries in front, and never fails. -/
def ofTables (params : List (String × Handle)) (bindings : List (String × Slot)) (registry : Registry) :
    Host where
  param _ name := .ok (params.lookup name)
  binding _ name := .ok (bindings.lookup name)
  registry := registry

def readParam (host : Host) (log : Log) (name : String) : Outcome Slot :=
  match host.param log name with
  | .ok (some h) => .ok (.handle h)
  | .ok none => .error (.undefinedVariable "param" name)
  | .error failure => .error failure

def readBinding (host : Host) (log : Log) (name : String) : Outcome Slot :=
  match host.binding log name with
  | .ok (some slot) => .ok slot
  | .ok none => .error (.undefinedVariable "local" name)
  | .error failure => .error failure

end Host

end LazyExpr
