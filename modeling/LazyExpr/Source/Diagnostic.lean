import LazyExpr.Source.Location

namespace LazyExpr

/-- What is reported about a source text: a place, a message and perhaps advice. -/
structure Diagnostic where
  span : Span
  message : String
  hint : Option String := none
  deriving DecidableEq, Repr

/-- Blanks up to the column of the start, then a caret for each byte of the span, but at least one. -/
def Diagnostic.carets (d : Diagnostic) (column : Nat) : String :=
  String.ofList (List.replicate (column - 1) ' ' ++ List.replicate (max (d.span.stop - d.span.start) 1) '^')

/-- A number in a field of at least three places. -/
def lineNumber (n : Nat) : String :=
  let digits := Nat.toDigits 10 n
  String.ofList (List.replicate (3 - digits.length) ' ' ++ digits)

/-- The message, the location, the line of the source that it lies in and carets below the span. -/
def Diagnostic.withSource (d : Diagnostic) (source : String) : String :=
  let chars := source.toList
  let l := Location.of chars d.span.start
  let line := ((sourceLines chars)[l.line - 1]?).getD []
  let report :=
    "Error: " ++ d.message ++ "\n --> " ++ toString l.line ++ ":" ++ toString l.column ++ "\n  |\n" ++
      lineNumber l.line ++ " | " ++ String.ofList line ++ "\n    | " ++ d.carets l.column
  match d.hint with
  | some hint => report ++ "\n  = hint: " ++ hint
  | none => report

end LazyExpr
