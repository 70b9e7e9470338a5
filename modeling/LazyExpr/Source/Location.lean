import LazyExpr.Source.Span

namespace LazyExpr

/-- The number of bytes of these characters in a source text. -/
def byteSize : List Char → Nat
  | [] => 0
  | c :: rest => c.utf8Size + byteSize rest

/-- Line and column, both counted from one, columns in characters. -/
structure Location where
  line : Nat
  column : Nat
  deriving DecidableEq, Repr

def Location.first : Location := ⟨1, 1⟩

/-- Where the text goes on behind a character. Only a line feed ends a line. -/
def Location.after (l : Location) (c : Char) : Location :=
  if c = '\n' then ⟨l.line + 1, 1⟩ else ⟨l.line, l.column + 1⟩

/-- Moves on over every character that starts before byte `offset`. -/
def Location.advance (offset : Nat) : Nat → Location → List Char → Location
  | _, l, [] => l
  | here, l, c :: rest =>
    if offset ≤ here then l else Location.advance offset (here + c.utf8Size) (l.after c) rest

/-- The location of a byte offset. -/
def Location.of (source : List Char) (offset : Nat) : Location :=
  Location.advance offset 0 .first source

/-- The lines of a text, each with the line feed that ends it. A final line feed opens no further line. -/
@[simp] def linesWithEnd : List Char → List (List Char)
  | [] => []
  | c :: rest =>
    if c = '\n' then [c] :: linesWithEnd rest
    else match linesWithEnd rest with
      | [] => [[c]]
      | line :: more => (c :: line) :: more

/-- A line without the line feed that ends it, nor the carriage return in front of that. -/
def withoutLineEnd (line : List Char) : List Char :=
  match line.reverse with
  | '\n' :: '\r' :: rest => rest.reverse
  | '\n' :: rest => rest.reverse
  | _ => line

def sourceLines (source : List Char) : List (List Char) := (linesWithEnd source).map withoutLineEnd

end LazyExpr
