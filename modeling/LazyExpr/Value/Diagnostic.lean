import LazyExpr.Number.Positional
import LazyExpr.Text.Escaped
import LazyExpr.Value.Basic

namespace LazyExpr

namespace Value

mutual

/-- The text of a value in diagnostics, which names the type of every value but the nullish ones. -/
def diagnostic : Value → String
  | null => "Null"
  | undefined => "Undefined"
  | bool b => "Bool(" ++ (if b then "true" else "false") ++ ")"
  | int n => "Int(" ++ toString n.toInt ++ ")"
  | float x => "Float(" ++ floatDiagnostic x ++ ")"
  | string s => "String(" ++ escaped s ++ ")"
  | list items => "List([" ++ String.intercalate ", " (diagnostics items) ++ "])"
  | record fields => "Record(\x7b" ++ String.intercalate ", " (fieldDiagnostics fields) ++ "\x7d)"

def diagnostics : List Value → List String
  | [] => []
  | item :: rest => diagnostic item :: diagnostics rest

def fieldDiagnostics : Fields → List String
  | [] => []
  | (name, value) :: rest => (escaped name ++ ": " ++ diagnostic value) :: fieldDiagnostics rest

end

end Value

end LazyExpr
