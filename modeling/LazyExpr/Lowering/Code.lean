import LazyExpr.Lowering.Storage
import LazyExpr.Tree.Operator

namespace LazyExpr

/-- Generated code as a tree. `await` marks a suspension point: it yields the handle of its provider once
that is ready. Of `firstPresent` and `ternary` only the sides that are needed run. -/
inductive Code
  | nullHandle
  | const (value : Value)
  | param (name : String)
  | binding (name : String)
  | box (inner : Code)
  | await (provider : Code) (point : Nat)
  | resolve (inner : Code)
  | firstPresent (left right : Code)
  | ternary (condition yes no : Code)
  | truthy (inner : Code)
  | binary (op : Operator) (left right : Code)
  | unary (op : Operator) (operand : Code)
  | field (base : Code) (name : String) (safe : Bool)
  | index (base key : Code) (safe : Bool)
  | list (items : List Code)
  | call (name : String) (args : List Code)
  deriving Inhabited

namespace Code

mutual

/-- The suspension points in the order in which the code would reach them. -/
def points : Code → List Nat
  | nullHandle | const _ | param _ | binding _ => []
  | box inner | resolve inner | truthy inner => points inner
  | await provider point => points provider ++ [point]
  | firstPresent left right => points left ++ points right
  | ternary condition yes no => points condition ++ points yes ++ points no
  | binary _ left right => points left ++ points right
  | unary _ operand => points operand
  | field base _ _ => points base
  | index base key _ => points base ++ points key
  | list items => pointsOfAll items
  | call _ args => pointsOfAll args

def pointsOfAll : List Code → List Nat
  | [] => []
  | code :: rest => points code ++ pointsOfAll rest

end

mutual

/-- The number of places where a computed value is wrapped. -/
def boxes : Code → Nat
  | nullHandle | const _ | param _ | binding _ => 0
  | box inner => boxes inner + 1
  | resolve inner | truthy inner => boxes inner
  | await provider _ => boxes provider
  | firstPresent left right => boxes left + boxes right
  | ternary condition yes no => boxes condition + boxes yes + boxes no
  | binary _ left right => boxes left + boxes right
  | unary _ operand => boxes operand
  | field base _ _ => boxes base
  | index base key _ => boxes base + boxes key
  | list items => boxesOfAll items
  | call _ args => boxesOfAll args

def boxesOfAll : List Code → Nat
  | [] => 0
  | code :: rest => boxes code + boxesOfAll rest

end

end Code

/-- Code together with the storage of its result. -/
structure TypedCode where
  code : Code
  storage : Storage
  deriving Inhabited

namespace TypedCode

/-- The one null handle that is shared by all. -/
def nullProvider : TypedCode := ⟨.nullHandle, .data .nullish⟩

def constant (value : Value) : TypedCode := ⟨.const value, .ofLiteral value⟩

/-- Wraps a bare scalar. All else is a handle already. -/
def boxed (c : TypedCode) : TypedCode :=
  if c.storage.isRaw then ⟨.box c.code, c.storage.boxed⟩ else c

/-- Takes the value out of a handle that is ready. -/
def resolved (c : TypedCode) : TypedCode :=
  match c.storage with
  | .deferred => ⟨.resolve c.code, .data .any⟩
  | _ => c

/-- The left side unless its value is nullish, else the right side. -/
def firstPresent (left right : TypedCode) : TypedCode :=
  ⟨.firstPresent left.code right.code,
    if left.storage.isHandle && right.storage.isHandle then .deferred else .data .any⟩

/-- A bare truth value to branch on. -/
def intoBranch (c : TypedCode) : TypedCode :=
  match c.storage with
  | .rawBool => c
  | _ => ⟨.truthy c.code, .rawBool⟩

def ternary (condition yes no : TypedCode) : TypedCode :=
  ⟨.ternary condition.intoBranch.code yes.code no.code, yes.storage.merge no.storage⟩

end TypedCode

/-- Numbers the suspension points. A handle whose value is present needs none. -/
def waitFor (provider : TypedCode) : StateM Nat TypedCode := fun next =>
  if provider.storage.isPresent then (provider, next)
  else (⟨.await provider.code next, provider.storage⟩, next + 1)

end LazyExpr
