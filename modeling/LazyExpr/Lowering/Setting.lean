import LazyExpr.Lowering.Code
import LazyExpr.Tree.Expr

namespace LazyExpr

/-- How the locals of a template are stored, where that differs from the rule; later declarations come
first. -/
abbrev Layout := List (String × Storage)

/-- The code that reads a variable. Parameters are handles. So are locals, and range variables are bare
integers, unless the layout says otherwise. -/
def Layout.provider (layout : Layout) (scope : Scope) (name : String) : TypedCode :=
  match scope with
  | .param => ⟨.param name, .deferred⟩
  | .binding => ⟨.binding name, (layout.lookup name).getD .deferred⟩
  | .range => ⟨.binding name, (layout.lookup name).getD .rawInt⟩

/-- What lowering is told about the surroundings of an expression: how variables are stored and which
expressions may have to wait for a value. -/
structure Setting where
  layout : Layout
  mayWait : Expr → Bool

namespace Expr

mutual

/-- Whether some parameter or local occurs in the expression that is not among the resolved names. -/
def requiresSuspension (resolved : List String) : Expr → Bool
  | null _ | literal _ _ => false
  | ref _ scope name =>
    match scope with
    | .range => false
    | .param | .binding => !resolved.contains name
  | list _ items => anyRequiresSuspension resolved items
  | field _ base _ _ => requiresSuspension resolved base
  | index _ base key _ => requiresSuspension resolved base || requiresSuspension resolved key
  | coalesce _ left right => requiresSuspension resolved left || requiresSuspension resolved right
  | choose _ condition yes no =>
    requiresSuspension resolved condition || requiresSuspension resolved yes ||
      requiresSuspension resolved no
  | binary _ _ left right => requiresSuspension resolved left || requiresSuspension resolved right
  | unary _ _ operand => requiresSuspension resolved operand
  | call _ _ args => anyRequiresSuspension resolved args

def anyRequiresSuspension (resolved : List String) : List Expr → Bool
  | [] => false
  | e :: rest => requiresSuspension resolved e || anyRequiresSuspension resolved rest

end

end Expr

/-- The setting of a layout and of names whose variables are known to be ready. -/
def Setting.static (layout : Layout) (resolved : List String) : Setting :=
  ⟨layout, Expr.requiresSuspension resolved⟩

end LazyExpr
