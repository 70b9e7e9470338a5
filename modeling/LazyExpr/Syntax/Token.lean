import LazyExpr.Number.Numeral
import LazyExpr.Source.Location
import LazyExpr.Text.Quoted
import LazyExpr.Tree.Expr

namespace LazyExpr

/-- What a token says. The sign `-` is the binary operator whether it stands between operands or in
front of one. A question mark knows whether a bracket follows it at once, which makes it null-safe
indexing where that is possible. -/
inductive Lexeme
  | word (name : String)
  | numeral (digits : List Char)
  | quoted (content : String)
  | ref (scope name : String)
  | operator (op : Operator)
  | bang
  | question (glued : Bool)
  | safeDot
  | dot
  | comma
  | colon
  | openParen
  | closeParen
  | openBracket
  | closeBracket
  deriving DecidableEq, Repr

structure Token where
  lexeme : Lexeme
  span : Span
  deriving DecidableEq, Repr

/-- The blanks that may stand between tokens. -/
def isBlank (c : Char) : Bool := c = ' ' || c = '\t' || c = '\r' || c = '\n'

def isWordStart (c : Char) : Bool := c.isAlpha || c = '_'

def isWordPart (c : Char) : Bool := c.isAlphanum || c = '_'

/-- Splits off the identifier a text starts with. -/
def splitWord (cs : List Char) : List Char × List Char :=
  (cs.takeWhile isWordPart, cs.dropWhile isWordPart)

namespace Lexeme

/-- A reference is written without blanks: two braces, the scope, a colon, the name, two braces. -/
def splitRef? (cs : List Char) : Option (Lexeme × List Char × List Char) :=
  match cs with
  | '\x7b' :: '\x7b' :: s :: rest =>
    let (scope, rest) := splitWord (s :: rest)
    match rest with
    | ':' :: n :: rest =>
      let (name, rest) := splitWord (n :: rest)
      match rest with
      | '\x7d' :: '\x7d' :: rest =>
        if isWordStart s && isWordStart n then
          some (.ref (String.ofList scope) (String.ofList name),
            '\x7b' :: '\x7b' :: scope ++ ':' :: name ++ ['\x7d', '\x7d'], rest)
        else none
      | _ => none
    | _ => none
  | _ => none

/-- Splits off an operator or a mark, the longest one first. -/
def splitMark? : List Char → Option (Lexeme × List Char × List Char)
  | '?' :: '?' :: rest => some (.operator .coalesce, ['?', '?'], rest)
  | '?' :: '.' :: rest => some (.safeDot, ['?', '.'], rest)
  | '?' :: '[' :: rest => some (.question true, ['?'], '[' :: rest)
  | '?' :: rest => some (.question false, ['?'], rest)
  | '|' :: '|' :: rest => some (.operator .or, ['|', '|'], rest)
  | '|' :: rest => some (.operator .bitOr, ['|'], rest)
  | '&' :: '&' :: rest => some (.operator .and, ['&', '&'], rest)
  | '&' :: rest => some (.operator .bitAnd, ['&'], rest)
  | '=' :: '=' :: rest => some (.operator .equal, ['=', '='], rest)
  | '!' :: '=' :: rest => some (.operator .different, ['!', '='], rest)
  | '!' :: rest => some (.bang, ['!'], rest)
  | '<' :: '=' :: rest => some (.operator .atMost, ['<', '='], rest)
  | '<' :: '<' :: rest => some (.operator .shiftLeft, ['<', '<'], rest)
  | '<' :: rest => some (.operator .less, ['<'], rest)
  | '>' :: '=' :: rest => some (.operator .atLeast, ['>', '='], rest)
  | '>' :: '>' :: rest => some (.operator .shiftRight, ['>', '>'], rest)
  | '>' :: rest => some (.operator .greater, ['>'], rest)
  | '+' :: rest => some (.operator .plus, ['+'], rest)
  | '-' :: rest => some (.operator .minus, ['-'], rest)
  | '*' :: rest => some (.operator .times, ['*'], rest)
  | '/' :: rest => some (.operator .divide, ['/'], rest)
  | '%' :: rest => some (.operator .remainder, ['%'], rest)
  | '^' :: rest => some (.operator .bitXor, ['^'], rest)
  | '.' :: rest => some (.dot, ['.'], rest)
  | ',' :: rest => some (.comma, [','], rest)
  | ':' :: rest => some (.colon, [':'], rest)
  | '(' :: rest => some (.openParen, ['('], rest)
  | ')' :: rest => some (.closeParen, [')'], rest)
  | '[' :: rest => some (.openBracket, ['['], rest)
  | ']' :: rest => some (.closeBracket, [']'], rest)
  | _ => none

/-- Splits a text into its first token, the characters of that, and the rest. -/
def split? (cs : List Char) : Option (Lexeme × List Char × List Char) :=
  match cs with
  | [] => none
  | c :: _ =>
    if isWordStart c then
      let (name, rest) := splitWord cs
      some (.word (String.ofList name), name, rest)
    else if c.isDigit then
      let (digits, rest) := Numeral.split cs
      some (.numeral digits, digits, rest)
    else if c = '"' then
      (Quoted.decode cs).map fun (content, taken, rest) => (.quoted (String.ofList content), taken, rest)
    else if c = '\x7b' then splitRef? cs
    else splitMark? cs

end Lexeme

/-- The tokens of a text that starts at byte `here`, blanks between them being skipped. At most `fuel`
characters and tokens are looked at. -/
def Token.scan? : Nat → Nat → List Char → Option (List Token)
  | _, _, [] => some []
  | 0, _, _ => none
  | fuel + 1, here, c :: rest =>
    if isBlank c then Token.scan? fuel (here + c.utf8Size) rest
    else match Lexeme.split? (c :: rest) with
      | none => none
      | some (lexeme, taken, rest) =>
        let stop := here + byteSize taken
        (Token.scan? fuel stop rest).map (⟨lexeme, ⟨here, stop⟩⟩ :: ·)

/-- The tokens of a source text, unless some part of it starts no token. -/
def Token.all? (source : List Char) : Option (List Token) := Token.scan? source.length 0 source

end LazyExpr
