import LazyExpr.Number.Word

namespace LazyExpr

/-- The plain values. The fields of a record stand in increasing order of their names; `Value.ofFields`
builds such records. -/
inductive Value
  | null
  | undefined
  | bool (b : Bool)
  | int (n : Word)
  | float (x : Float)
  | string (s : String)
  | list (items : List Value)
  | record (fields : List (String × Value))
  deriving Inhabited

abbrev Fields := List (String × Value)

/-- Puts a field in its place; a field of that name gives way. -/
def Fields.insert (name : String) (value : Value) : Fields → Fields
  | [] => [(name, value)]
  | field :: rest =>
    if name < field.1 then (name, value) :: field :: rest
    else if name = field.1 then (name, value) :: rest
    else field :: Fields.insert name value rest

namespace Value

/-- The record of these fields. Of several fields with one name the last one counts. -/
def ofFields (fields : Fields) : Value :=
  .record (fields.foldl (fun sorted field => Fields.insert field.1 field.2 sorted) [])

/-- The two values that `??` and null-safe access pass over. -/
def isNullish : Value → Bool
  | null | undefined => true
  | _ => false

/-- What counts as true in conditions: neither nullish, nor false, nor zero, nor not-a-number, nor the
empty string. -/
def isTruthy : Value → Bool
  | null | undefined => false
  | bool b => b
  | int n => n != 0
  | float x => x != 0 && !x.isNaN
  | string s => !s.isEmpty
  | list _ | record _ => true

def typeName : Value → String
  | null => "null"
  | undefined => "undefined"
  | bool _ => "bool"
  | int _ => "int"
  | float _ => "float"
  | string _ => "string"
  | list _ => "list"
  | record _ => "record"

def asInt? : Value → Option Word
  | int n => some n
  | _ => none

/-- The value as a double, integers being widened. -/
def asNumber? : Value → Option Float
  | int n => some (Word.toFloat n)
  | float x => some x
  | _ => none

def asBool? : Value → Option Bool
  | bool b => some b
  | _ => none

def asString? : Value → Option String
  | string s => some s
  | _ => none

def asList? : Value → Option (List Value)
  | list items => some items
  | _ => none

def asRecord? : Value → Option Fields
  | record fields => some fields
  | _ => none

mutual

/-- Equality of structure. Values of different types differ, doubles are compared as numbers: zero
equals its negative and what is not a number differs from itself. -/
def same : Value → Value → Bool
  | null, null => true
  | undefined, undefined => true
  | bool a, bool b => a == b
  | int a, int b => a == b
  | float a, float b => a == b
  | string a, string b => a == b
  | list a, list b => sameItems a b
  | record a, record b => sameFields a b
  | _, _ => false

def sameItems : List Value → List Value → Bool
  | [], [] => true
  | a :: as, b :: bs => same a b && sameItems as bs
  | _, _ => false

def sameFields : Fields → Fields → Bool
  | [], [] => true
  | (name, a) :: as, (name', b) :: bs => name == name' && same a b && sameFields as bs
  | _, _ => false

end

instance : BEq Value := ⟨same⟩

end Value

end LazyExpr
