import LazyExpr.Tree.Operator

namespace LazyExpr

/-- What is left to decide about a text before it is written: which operands get parentheses. A leaf has
a binding strength but no side on which it would regroup, an atom never gets parentheses. -/
inductive Printable
  | unary (op : Operator) (operand : Printable)
  | binary (op : Operator) (left right : Printable)
  | ternary (op : Operator) (condition yes no : Printable)
  | leaf (text : String) (level : Level)
  | atom (text : String)
  deriving Inhabited

/-- On which side of its operator an operand stands. -/
inductive Side
  | left
  | right
  deriving DecidableEq, Repr

/-- An operand of the same level, written bare on this side, would be read as part of a regrouped
expression. -/
def Side.regroups : Side → Associativity → Bool
  | left, .right => true
  | right, .left => true
  | _, _ => false

namespace Printable

/-- The operator at the root, if there is one. -/
def operator? : Printable → Option Operator
  | unary op _ | binary op _ _ | ternary op _ _ _ => some op
  | leaf _ _ | atom _ => none

/-- An operand needs parentheses when it binds less tightly than its operator, or just as tightly and on
the side on which it would regroup. -/
def isProtected (op : Operator) (side : Side) (p : Printable) : Bool :=
  match p with
  | unary inner _ | binary inner _ _ | ternary inner _ _ _ =>
    inner.level < op.level || (inner.level == op.level && side.regroups inner.associativity)
  | leaf _ level => level < op.level
  | atom _ => false

def parenthesized (needed : Bool) (text : String) : String :=
  if needed then "(" ++ text ++ ")" else text

/-- Infix operators have a blank on either side, prefix and postfix ones none. -/
def render : Printable → String
  | leaf text _ | atom text => text
  | unary op operand =>
    if op.isPostfix then parenthesized (isProtected op .left operand) operand.render ++ op.token
    else op.token ++ parenthesized (isProtected op .right operand) operand.render
  | binary op left right =>
    parenthesized (isProtected op .left left) left.render ++ " " ++ op.token ++ " " ++
      parenthesized (isProtected op .right right) right.render
  | ternary op condition yes no =>
    parenthesized (isProtected op .left condition) condition.render ++ " ? " ++
      parenthesized (isProtected op .right yes) yes.render ++ " : " ++
      parenthesized (isProtected op .right no) no.render

/-- Member access binds tighter than every operator and every sign. -/
def isProtectedBase : Printable → Bool
  | unary _ _ | binary _ _ _ | ternary _ _ _ _ => true
  | leaf _ level => level < Level.primary
  | atom _ => false

end Printable

end LazyExpr
