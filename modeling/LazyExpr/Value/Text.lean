import LazyExpr.Number.Positional
import LazyExpr.Value.Basic

namespace LazyExpr

namespace Value

mutual

/-- The text of a value in output. The items of a list and the fields of a record are separated by a
comma and a blank, and have no brackets around them. -/
def text : Value → String
  | null => "null"
  | undefined => "undefined"
  | bool b => if b then "true" else "false"
  | int n => toString n.toInt
  | float x => floatOutput x
  | string s => s
  | list items => String.intercalate ", " (texts items)
  | record fields => String.intercalate ", " (fieldTexts fields)

def texts : List Value → List String
  | [] => []
  | item :: rest => text item :: texts rest

def fieldTexts : Fields → List String
  | [] => []
  | (name, value) :: rest => (name ++ ": " ++ text value) :: fieldTexts rest

end

theorem texts_eq_map (items : List Value) : texts items = items.map text := by
  induction items with
  | nil => rfl
  | cons item rest ih => simp [texts, ih]

end Value

end LazyExpr
