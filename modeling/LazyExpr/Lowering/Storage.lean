import LazyExpr.Value.Basic

namespace LazyExpr

/-- What is known about a value that has been wrapped and is present. -/
inductive Kind
  | nullish
  | bool
  | int
  | float
  | string
  | list
  | any
  deriving DecidableEq

/-- How the result of a piece of code is stored at run time: as a bare scalar, as a value that is present,
or as a handle that may still be waiting for its value. -/
inductive Storage
  | rawInt
  | rawFloat
  | rawBool
  | data (kind : Kind)
  | deferred
  deriving DecidableEq, Inhabited

namespace Storage

/-- Every storage, bare scalars first. -/
def all : List Storage :=
  [rawInt, rawFloat, rawBool, data .nullish, data .bool, data .int, data .float, data .string, data .list,
    data .any, deferred]

def name : Storage → String
  | rawInt => "int"
  | rawFloat => "float"
  | rawBool => "bool"
  | data .nullish => "data<Nullish>"
  | data .bool => "data<Bool>"
  | data .int => "data<Int>"
  | data .float => "data<Float>"
  | data .string => "data<String>"
  | data .list => "data<List>"
  | data .any => "data<Any>"
  | deferred => "lazy"

def ofName? (name : String) : Option Storage := all.find? fun s => s.name == name

def isRaw : Storage → Bool
  | rawInt | rawFloat | rawBool => true
  | _ => false

def isRawNumber : Storage → Bool
  | rawInt | rawFloat => true
  | _ => false

/-- Whether it can be handed on as a handle. -/
def isHandle : Storage → Bool
  | data _ | deferred => true
  | _ => false

/-- Whether the value is present without waiting. -/
def isPresent : Storage → Bool
  | data _ => true
  | _ => false

/-- Wrapping a bare scalar keeps its kind. -/
def boxed : Storage → Storage
  | rawInt => data .int
  | rawFloat => data .float
  | rawBool => data .bool
  | s => s

/-- The storage of a value that comes from one of two places: the common one, of two kinds of present
values any kind, and otherwise a handle. -/
def merge (a b : Storage) : Storage :=
  if a = b then a
  else if a.isPresent && b.isPresent then data .any
  else deferred

def ofLiteral : Value → Storage
  | .null | .undefined => data .nullish
  | .bool _ => rawBool
  | .int _ => rawInt
  | .float _ => rawFloat
  | .string _ => data .string
  | .list _ => data .list
  | .record _ => data .any

theorem mem_all (s : Storage) : s ∈ all := by
  cases s with
  | data kind => cases kind <;> decide
  | _ => decide

theorem ofName?_name (s : Storage) : ofName? s.name = some s := by
  cases s with
  | data kind => cases kind <;> decide
  | _ => decide

theorem merge_comm (a b : Storage) : a.merge b = b.merge a := by
  unfold merge
  by_cases h : a = b
  · simp [h]
  · simp [h, Ne.symm h, Bool.and_comm]

end Storage

end LazyExpr
