import LazyExpr.Number.Positional
import LazyExpr.Text.Quoted
import LazyExpr.Tree.Expr
import LazyExpr.Tree.Printable

namespace LazyExpr

/-- A negative number is written with a sign in front and binds like one. -/
def numberLeaf (text : String) (negative : Bool) : Printable :=
  .leaf text (if negative then Operator.negate.level else Level.primary)

mutual

/-- The literal of a value. Records have no notation and stand as a word in angle brackets. -/
@[simp] def Value.printable : Value → Printable
  | .null => .leaf "null" Level.primary
  | .undefined => .leaf "undefined" Level.primary
  | .bool b => .leaf (if b then "true" else "false") Level.primary
  | .int n => numberLeaf (toString n.toInt) (decide (n.toInt < 0))
  | .float x => numberLeaf (floatNumeral x) (x < 0)
  | .string s => .leaf (quoted s) Level.primary
  | .list items => .leaf ("[" ++ String.intercalate ", " (Value.printAll items) ++ "]") Level.primary
  | .record _ => .atom "<record>"

@[simp] def Value.printAll : List Value → List String
  | [] => []
  | item :: rest => (Value.printable item).render :: Value.printAll rest

end

namespace Expr

mutual

/-- An expression as a tree of operators over texts. -/
@[simp] def printable : Expr → Printable
  | null _ => .leaf "null" Level.primary
  | literal _ value => value.printable
  | list _ items => .leaf ("[" ++ String.intercalate ", " (printAll items) ++ "]") Level.primary
  | ref _ scope name =>
    .leaf ("\x7b\x7b" ++ scope.keyword ++ ":" ++ name ++ "\x7d\x7d") Level.primary
  | field _ base name safe =>
    let base := printable base
    .leaf (Printable.parenthesized base.isProtectedBase base.render ++ (if safe then "?." else ".") ++ name)
      Level.primary
  | index _ base key safe =>
    let base := printable base
    .leaf (Printable.parenthesized base.isProtectedBase base.render ++ (if safe then "?[" else "[") ++
      (printable key).render ++ "]") Level.primary
  | coalesce _ left right => .binary .coalesce (printable left) (printable right)
  | choose _ condition yes no => .ternary .choose (printable condition) (printable yes) (printable no)
  | binary _ op left right => .binary op (printable left) (printable right)
  | unary _ op operand => .unary op (printable operand)
  | call _ name args => .leaf (name ++ "(" ++ String.intercalate ", " (printAll args) ++ ")") Level.primary

@[simp] def printAll : List Expr → List String
  | [] => []
  | e :: rest => (printable e).render :: printAll rest

end

/-- The source text of an expression, with parentheses only where they are needed. -/
def print (e : Expr) : String := e.printable.render

end Expr

end LazyExpr
