import LazyExpr.Machine.Failure

namespace LazyExpr

abbrev Outcome := Except Failure

namespace Value

def number (v : Value) : Outcome Float :=
  match v.asNumber? with
  | some x => .ok x
  | none => .error (.expected "number" v.typeName)

def integer (v : Value) : Outcome Word :=
  match v.asInt? with
  | some n => .ok n
  | none => .error (.expected "int" v.typeName)

/-- A result that has to fit a word. -/
def ofWord : Option Word → Outcome Value
  | some n => .ok (.int n)
  | none => .error .overflow

/-- Equality in the language. Integers are compared as they are, the two nullish values are equal,
numbers are compared as doubles, and all else by its structure. -/
def equals (a b : Value) : Bool :=
  match a, b with
  | .int m, .int n => m == n
  | a, b =>
    if a.isNullish && b.isNullish then true
    else match a.asNumber?, b.asNumber? with
      | some x, some y => x == y
      | _, _ => a == b

/-- Numbers are ordered as doubles, integers included. -/
def compare (holds : Float → Float → Bool) (a b : Value) : Outcome Value := do
  let x ← a.number
  let y ← b.number
  pure (.bool (holds x y))

/-- Integers are added to integers, numbers as doubles, and with a string on either side the texts are
joined. -/
def add (a b : Value) : Outcome Value :=
  match a, b with
  | .int m, .int n => ofWord (Word.add? m n)
  | a, b =>
    match a.asNumber?, b.asNumber? with
    | some x, some y => .ok (.float (x + y))
    | _, _ =>
      if a.asString?.isSome || b.asString?.isSome then .ok (.string (a.text ++ b.text))
      else .error (.expected "number or string" (a.typeName ++ " + " ++ b.typeName))

/-- An operation that has a version for integers and one for doubles. -/
def arithmetic (onWords : Word → Word → Outcome Value) (onFloats : Float → Float → Outcome Value)
    (a b : Value) : Outcome Value :=
  match a, b with
  | .int m, .int n => onWords m n
  | a, b => do
    let x ← a.number
    let y ← b.number
    onFloats x y

def subtract : Value → Value → Outcome Value :=
  arithmetic (fun m n => ofWord (Word.sub? m n)) fun x y => .ok (.float (x - y))

def multiply : Value → Value → Outcome Value :=
  arithmetic (fun m n => ofWord (Word.mul? m n)) fun x y => .ok (.float (x * y))

/-- The remainder has the sign of the dividend. -/
def remainder : Value → Value → Outcome Value :=
  arithmetic
    (fun m n => if n = 0 then .error .divisionByZero else ofWord (Word.rem? m n))
    fun x y => if y == 0 then .error .divisionByZero else .ok (.float (Binary.rem x y))

/-- Quotients are doubles, also of integers. -/
def divide (a b : Value) : Outcome Value := do
  let x ← a.number
  let y ← b.number
  if y == 0 then .error .divisionByZero else .ok (.float (x / y))

def bitwise (operation : Word → Word → Option Word) (a b : Value) : Outcome Value := do
  let m ← a.integer
  let n ← b.integer
  ofWord (operation m n)

/-- The negative of an integer has to fit a word. -/
def negative (v : Value) : Outcome Value :=
  match v with
  | .int n => ofWord (Word.neg? n)
  | v => do
    let x ← v.number
    pure (.float (-x))

def present (v : Value) : Outcome Value :=
  if v.isNullish then .error (.assertionFailed v) else .ok v

/-- Null-safe access to a nullish value gives `null`, any other one fails. -/
def ofNullish (base : Value) (safe : Bool) (key : String) : Outcome Value :=
  if safe then .ok .null else .error (.nullAccess key base)

def lengthOf (n : Nat) : Value := .int (Int64.ofNat n)

/-- A field of a record, which is `undefined` if there is none of that name, or the length of a list or
of a string in characters. -/
def field (base : Value) (name : String) (safe : Bool) : Outcome Value :=
  match base with
  | .null | .undefined => ofNullish base safe name
  | .record fields => .ok ((fields.lookup name).getD .undefined)
  | .list items =>
    if name = "length" then .ok (lengthOf items.length)
    else .error (.expected ("record with field " ++ Failure.inCode name) base.typeName)
  | .string s =>
    if name = "length" then .ok (lengthOf s.length)
    else .error (.expected ("record with field " ++ Failure.inCode name) base.typeName)
  | base => .error (.expected ("record with field " ++ Failure.inCode name) base.typeName)

/-- An item of a list by its position, or a field of a record by its name; `undefined` if there is none. -/
def index (base key : Value) (safe : Bool) : Outcome Value :=
  match base, key with
  | .null, key => ofNullish .null safe key.text
  | .undefined, key => ofNullish .undefined safe key.text
  | .list items, .int n =>
    .ok (if 0 ≤ n.toInt then (items[n.toInt.toNat]?).getD .undefined else .undefined)
  | .record fields, .string name => .ok ((fields.lookup name).getD .undefined)
  | base, key =>
    .error (.expected "list[int] or record[string]" (base.typeName ++ "[" ++ key.typeName ++ "]"))

end Value

namespace Operator

/-- What a binary operator makes of two values. Both have been evaluated, whatever the operator. -/
def applyBinary (op : Operator) (a b : Value) : Outcome Value :=
  match op with
  | equal => .ok (.bool (a.equals b))
  | different => .ok (.bool (!a.equals b))
  | less => Value.compare (fun x y => x < y) a b
  | greater => Value.compare (fun x y => x > y) a b
  | atMost => Value.compare (fun x y => x ≤ y) a b
  | atLeast => Value.compare (fun x y => x ≥ y) a b
  | and => .ok (.bool (a.isTruthy && b.isTruthy))
  | or => .ok (.bool (a.isTruthy || b.isTruthy))
  | coalesce => .ok (if a.isNullish then b else a)
  | plus => a.add b
  | minus => a.subtract b
  | times => a.multiply b
  | remainder => a.remainder b
  | divide => a.divide b
  | shiftLeft => Value.bitwise Word.shiftLeft? a b
  | shiftRight => Value.bitwise Word.shiftRight? a b
  | bitAnd => Value.bitwise (fun m n => some (m &&& n)) a b
  | bitXor => Value.bitwise (fun m n => some (m ^^^ n)) a b
  | bitOr => Value.bitwise (fun m n => some (m ||| n)) a b
  | assertPresent | negate | not | choose => .error (.notBinary op)

/-- What a unary operator makes of a value. -/
def applyUnary (op : Operator) (v : Value) : Outcome Value :=
  match op with
  | not => .ok (.bool !v.isTruthy)
  | negate => v.negative
  | assertPresent => v.present
  | op => .error (.notUnary op)

end Operator

end LazyExpr
