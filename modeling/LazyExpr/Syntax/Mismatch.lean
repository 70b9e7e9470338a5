import LazyExpr.Source.Location
import LazyExpr.Syntax.Rule
import LazyExpr.Syntax.Token

namespace LazyExpr

/-- The furthest byte at which a rule failed, and the rules that did. -/
structure Mismatch where
  offset : Nat
  attempts : List Rule
  deriving DecidableEq, Repr

namespace Mismatch

/-- A place in a text: its byte offset and what follows. -/
structure Cursor where
  offset : Nat
  rest : List Char

/-- How many attempts are noted for a place. -/
def noted (m : Mismatch) (offset : Nat) : Nat :=
  if offset = m.offset then m.attempts.length else 0

/-- A failed rule replaces what the rules below it have noted at the same place since it was tried, but
not a single one of them, which says more. Only the furthest place counts. -/
def note (before : Nat) (r : Rule) (offset : Nat) (m : Mismatch) : Mismatch :=
  if m.noted offset = before + 1 then m
  else if offset = m.offset then ⟨offset, m.attempts.take before ++ [r]⟩
  else if m.offset < offset then ⟨offset, [r]⟩
  else m

/-- Goes on behind these characters, if the text has them here. -/
def Cursor.after? (c : Cursor) : List Char → Option Cursor
  | [] => some c
  | x :: more =>
    match c.rest with
    | y :: rest => if x = y then Cursor.after? ⟨c.offset + y.utf8Size, rest⟩ more else none
    | [] => none

def Cursor.skipBlanks (c : Cursor) : Cursor :=
  ⟨c.offset + byteSize (c.rest.takeWhile isBlank), c.rest.dropWhile isBlank⟩

/-- Matches a pattern and keeps note of the rules that fail, except inside atomic rules. Fuel bounds the
depth of the patterns and rounds inside one another. -/
@[simp] def trace : Nat → Bool → Pattern → Cursor → Mismatch → Option Cursor × Mismatch
  | 0, _, _, _, m => (none, m)
  | fuel + 1, quiet, p, c, m =>
    match p with
    | .text s => (c.after? s.toList, m)
    | .one accepts =>
      match c.rest with
      | x :: rest => (if accepts x then some ⟨c.offset + x.utf8Size, rest⟩ else none, m)
      | [] => (none, m)
    | .endOfText => (if c.rest.isEmpty then some c else none, m)
    | .blanks => (some c.skipBlanks, m)
    | .rule r =>
      match trace fuel (quiet || r.isAtomic) r.body c m with
      | (some c, after) => (some c, after)
      | (none, after) => (none, if quiet then after else after.note (m.noted c.offset) r c.offset)
    | .seq first second =>
      match trace fuel quiet first c m with
      | (some c, m) => trace fuel quiet second c m
      | (none, m) => (none, m)
    | .either first second =>
      match trace fuel quiet first c m with
      | (some c, m) => (some c, m)
      | (none, m) => trace fuel quiet second c m
    | .optional p =>
      match trace fuel quiet p c m with
      | (some c, m) => (some c, m)
      | (none, m) => (some c, m)
    | .many p =>
      match trace fuel quiet p c m with
      | (some c, m) => trace fuel quiet (.many p) c m
      | (none, m) => (some c, m)
    | .absent p =>
      match trace fuel true p c m with
      | (some _, m) => (none, m)
      | (none, m) => (some c, m)

/-- Fuel for a text of this many characters: each opens at most one more level of nesting, and a level
passes through fewer than a hundred patterns. -/
def fuelFor (size : Nat) : Nat := 100 * (size + 2)

/-- The mismatch of a text that the grammar does not match as a whole. -/
def of (source : List Char) : Mismatch :=
  (trace (fuelFor source.length) false (.rule .expression) ⟨0, source⟩ ⟨0, []⟩).2

/-- The rules in question, each once. -/
def expected (m : Mismatch) : List Rule := Rule.all.filter (m.attempts.contains ·)

/-- Names with commas between them and "or" before the last. -/
def enumerate : List String → String
  | [] => ""
  | [a] => a
  | [a, b] => a ++ " or " ++ b
  | names => String.intercalate ", " names.dropLast ++ ", or " ++ names.getLastD ""

def reason (m : Mismatch) : String :=
  match m.expected with
  | [] => "unknown parsing error"
  | rules => "expected " ++ enumerate (rules.map Rule.name)

/-- Line ends are shown as symbols where the error is at one of them, and left out elsewhere. -/
def showLineEnds (atLineEnd : Bool) (line : List Char) : List Char :=
  line.flatMap fun c =>
    if c = '\r' then (if atLineEnd then ['␍'] else [])
    else if c = '\n' then (if atLineEnd then ['␊'] else [])
    else [c]

/-- The character at a byte offset, or the next one behind it. -/
def charAt? (offset : Nat) : Nat → List Char → Option Char
  | _, [] => none
  | here, c :: rest => if offset ≤ here then some c else charAt? offset (here + c.utf8Size) rest

/-- The report of a mismatch: its location, the line it lies in with a mark below the place, and the
rules that were expected there. -/
def report (m : Mismatch) (source : List Char) : String :=
  let l := Location.of source m.offset
  let number := toString l.line
  let margin := String.ofList (List.replicate number.length ' ')
  let line := ((linesWithEnd source)[l.line - 1]?).getD []
  let atLineEnd := match charAt? m.offset 0 source with
    | some c => c = '\n' || c = '\r'
    | none => false
  let shown := showLineEnds atLineEnd line
  let under := (shown.take (l.column - 1)).map fun c => if c = '\t' then '\t' else ' '
  margin ++ "--> " ++ number ++ ":" ++ toString l.column ++ "\n" ++
    margin ++ " |\n" ++
    number ++ " | " ++ String.ofList shown ++ "\n" ++
    margin ++ " | " ++ String.ofList under ++ "^---\n" ++
    margin ++ " |\n" ++
    margin ++ " = " ++ m.reason

end Mismatch

end LazyExpr
