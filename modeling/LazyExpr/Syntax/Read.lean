import LazyExpr.Source.Diagnostic
import LazyExpr.Syntax.Grammar
import LazyExpr.Syntax.Mismatch

namespace LazyExpr

/-- Why a text is no expression: the grammar does not match it, a numeral does not fit a word, or a
reference names no scope. -/
inductive ReadError
  | mismatch (offset : Nat) (report : String)
  | numeral (span : Span) (digits : String)
  | scope (span : Span) (name : String)
  deriving DecidableEq, Repr

/-- A mismatch is reported for the one byte behind its offset. -/
def ReadError.diagnostic : ReadError → Diagnostic
  | mismatch offset report => { span := ⟨offset, offset + 1⟩, message := "parse error: " ++ report }
  | numeral span digits =>
    { span, message := "invalid number: " ++ digits, hint := some "integers must fit in 64 bits" }
  | scope span name =>
    { span, message := "unknown variable scope: " ++ name
      hint := some "expected \x60param\x60, \x60local\x60, or \x60range\x60" }

/-- Where the scope of a reference stands: behind the two braces. -/
def scopeSpan (reference : Span) (scope : String) : Span :=
  ⟨reference.start + 2, reference.start + 2 + byteSize scope.toList⟩

/-- What is wrong with a token although the grammar has a place for it. -/
def Token.fault? (t : Token) : Option ReadError :=
  match t.lexeme with
  | .numeral digits =>
    match Numeral.value? digits with
    | some _ => none
    | none => some (.numeral t.span (String.ofList digits))
  | .ref scope _ =>
    match Scope.ofKeyword? scope with
    | some _ => none
    | none => some (.scope (scopeSpan t.span scope) scope)
  | _ => none

/-- The expression that these characters make up as the grammar has it, with their tokens. -/
def match? (source : List Char) : Option (List Token × Expr) :=
  match Token.all? source with
  | some tokens => (Grammar.whole? (byteSize source) tokens).map (tokens, ·)
  | none => none

theorem match?_eq_some_iff {source : List Char} {tokens : List Token} {e : Expr} :
    match? source = some (tokens, e) ↔
    Token.all? source = some tokens ∧ Grammar.whole? (byteSize source) tokens = some e := by
  unfold match?
  cases Token.all? source with
  | none => exact iff_of_false (fun found => by cases found) fun found => by cases found.1
  | some found =>
    constructor
    · intro matched
      obtain ⟨_, whole, same⟩ := Option.map_eq_some_iff.mp matched
      cases same
      exact ⟨rfl, whole⟩
    · rintro ⟨same, whole⟩
      cases same
      exact Option.map_eq_some_iff.mpr ⟨e, whole, rfl⟩

/-- Reads an expression. Of several faulty tokens the first one is reported, and only in a text that the
grammar matches. -/
def read (source : String) : Except ReadError Expr :=
  match match? source.toList with
  | none =>
    let m := Mismatch.of source.toList
    .error (.mismatch m.offset (m.report source.toList))
  | some (tokens, e) =>
    match tokens.findSome? Token.fault? with
    | some fault => .error fault
    | none => .ok e

theorem read_eq_ok_iff {source : String} {e : Expr} : read source = .ok e ↔
    ∃ tokens, match? source.toList = some (tokens, e) ∧ tokens.findSome? Token.fault? = none := by
  unfold read
  constructor
  · intro accepted
    split at accepted
    · cases accepted
    · rename_i tokens tree matched
      split at accepted
      · cases accepted
      · rename_i faultless
        cases accepted
        exact ⟨tokens, matched, faultless⟩
  · intro ⟨tokens, matched, faultless⟩
    simp only [matched, faultless]

end LazyExpr
