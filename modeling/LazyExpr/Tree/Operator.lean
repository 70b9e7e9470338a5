namespace LazyExpr

/-- Binding strength: of two operators the higher one binds tighter. -/
abbrev Level := Nat

/-- The level of `?:`, the loosest of all. -/
def Level.lowest : Level := 1

/-- The level of what never needs parentheses: literals, variables, calls, member access. -/
def Level.primary : Level := 255

def Level.text (l : Level) : String := "P" ++ toString l

inductive Associativity
  | left
  | right
  | none
  deriving DecidableEq, Repr

inductive Operator
  | assertPresent
  | negate
  | not
  | times
  | divide
  | remainder
  | plus
  | minus
  | shiftLeft
  | shiftRight
  | less
  | greater
  | atMost
  | atLeast
  | equal
  | different
  | bitAnd
  | bitXor
  | bitOr
  | and
  | or
  | coalesce
  | choose
  deriving DecidableEq, Repr, Inhabited

namespace Operator

/-- Every operator, postfix and prefix ones first, then from the tightest to the loosest. -/
def all : List Operator :=
  [assertPresent, negate, not, times, divide, remainder, plus, minus, shiftLeft, shiftRight,
    less, greater, atMost, atLeast, equal, different, bitAnd, bitXor, bitOr, and, or, coalesce, choose]

/-- The token in source text. The two halves of `?:` stand with a blank between them. -/
def token : Operator → String
  | assertPresent | not => "!"
  | negate | minus => "-"
  | times => "*"
  | divide => "/"
  | remainder => "%"
  | plus => "+"
  | shiftLeft => "<<"
  | shiftRight => ">>"
  | less => "<"
  | greater => ">"
  | atMost => "<="
  | atLeast => ">="
  | equal => "=="
  | different => "!="
  | bitAnd => "&"
  | bitXor => "^"
  | bitOr => "|"
  | and => "&&"
  | or => "||"
  | coalesce => "??"
  | choose => "? :"

def level : Operator → Level
  | assertPresent => 14
  | negate | not => 13
  | times | divide | remainder => 12
  | plus | minus => 11
  | shiftLeft | shiftRight => 10
  | less | greater | atMost | atLeast => 9
  | equal | different => 8
  | bitAnd => 7
  | bitXor => 6
  | bitOr => 5
  | and => 4
  | or => 3
  | coalesce => 2
  | choose => Level.lowest

/-- Prefix operators and `?:` group to the right, all others to the left. -/
def associativity : Operator → Associativity
  | negate | not | choose => .right
  | _ => .left

def arity : Operator → Nat
  | assertPresent | negate | not => 1
  | choose => 3
  | _ => 2

def isArithmetic : Operator → Bool
  | times | divide | remainder | plus | minus => true
  | _ => false

def isComparison : Operator → Bool
  | less | greater | atMost | atLeast | equal | different => true
  | _ => false

def isBitwise : Operator → Bool
  | shiftLeft | shiftRight | bitAnd | bitXor | bitOr => true
  | _ => false

/-- The one operator whose token follows its operand. -/
def isPostfix : Operator → Bool
  | assertPresent => true
  | _ => false

/-- The first operator of that arity with that token. -/
def ofToken? (token : String) (arity : Nat) : Option Operator :=
  all.find? fun op => op.token == token && op.arity == arity

def binary? (token : String) : Option Operator := ofToken? token 2

theorem mem_all (op : Operator) : op ∈ all := by
  cases op <;> decide

/-- No two binary operators share a token. -/
theorem binary?_token {op : Operator} (h : op.arity = 2) : binary? op.token = some op := by
  revert h
  cases op <;> decide

end Operator

end LazyExpr
