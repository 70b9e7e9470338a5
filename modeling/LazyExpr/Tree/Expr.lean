import LazyExpr.Source.Span
import LazyExpr.Tree.Operator
import LazyExpr.Value.Basic

namespace LazyExpr

/-- The three scopes of variables. Parameters come from the host and may still be on their way, locals
are bound by the template, range variables count through a range of integers. -/
inductive Scope
  | param
  | binding
  | range
  deriving DecidableEq, Repr

/-- The name of a scope in source text. -/
def Scope.keyword : Scope → String
  | param => "param"
  | binding => "local"
  | range => "range"

def Scope.ofKeyword? (keyword : String) : Option Scope :=
  if keyword = "param" then some .param
  else if keyword = "local" then some .binding
  else if keyword = "range" then some .range
  else none

theorem Scope.ofKeyword?_keyword (s : Scope) : Scope.ofKeyword? s.keyword = some s := by
  cases s <;> decide

theorem Scope.keyword_of_ofKeyword? {keyword : String} {s : Scope} (known : ofKeyword? keyword = some s) :
    s.keyword = keyword := by
  unfold ofKeyword? at known
  split at known
  · cases known; symm; assumption
  · split at known
    · cases known; symm; assumption
    · split at known
      · cases known; symm; assumption
      · cases known

/-- Expressions. Each node carries the span of source text it was read from. -/
inductive Expr
  | null (span : Span)
  | literal (span : Span) (value : Value)
  | list (span : Span) (items : List Expr)
  | ref (span : Span) (scope : Scope) (name : String)
  | field (span : Span) (base : Expr) (name : String) (safe : Bool)
  | index (span : Span) (base key : Expr) (safe : Bool)
  | coalesce (span : Span) (left right : Expr)
  | choose (span : Span) (condition yes no : Expr)
  | binary (span : Span) (op : Operator) (left right : Expr)
  | unary (span : Span) (op : Operator) (operand : Expr)
  | call (span : Span) (name : String) (args : List Expr)
  deriving Inhabited

namespace Expr

def span : Expr → Span
  | null s | literal s _ | list s _ | ref s _ _ | field s _ _ _ | index s _ _ _ | coalesce s _ _
  | choose s _ _ _ | binary s _ _ _ | unary s _ _ | call s _ _ => s

mutual

/-- The same tree as if it had been built without a source text. -/
def withoutSpans : Expr → Expr
  | null _ => null .synthetic
  | literal _ value => literal .synthetic value
  | list _ items => list .synthetic (listWithoutSpans items)
  | ref _ scope name => ref .synthetic scope name
  | field _ base name safe => field .synthetic (withoutSpans base) name safe
  | index _ base key safe => index .synthetic (withoutSpans base) (withoutSpans key) safe
  | coalesce _ left right => coalesce .synthetic (withoutSpans left) (withoutSpans right)
  | choose _ condition yes no =>
    choose .synthetic (withoutSpans condition) (withoutSpans yes) (withoutSpans no)
  | binary _ op left right => binary .synthetic op (withoutSpans left) (withoutSpans right)
  | unary _ op operand => unary .synthetic op (withoutSpans operand)
  | call _ name args => call .synthetic name (listWithoutSpans args)

def listWithoutSpans : List Expr → List Expr
  | [] => []
  | e :: rest => withoutSpans e :: listWithoutSpans rest

end

/-- The node of a binary operator, which for `??` is a node of its own kind. It spans both operands. -/
def join (op : Operator) (left right : Expr) : Expr :=
  let span := left.span.merge right.span
  match op with
  | .coalesce => .coalesce span left right
  | op => .binary span op left right

end Expr

end LazyExpr
