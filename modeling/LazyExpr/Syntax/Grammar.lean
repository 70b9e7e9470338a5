import LazyExpr.Syntax.Chain
import LazyExpr.Syntax.Token

namespace LazyExpr

/-- A reader takes what it understands from the front of the tokens. -/
abbrev Reader (α : Type) := List Token → Option (α × List Token)

namespace Grammar

/-- Where the next token starts, or the text stops. -/
def nextStart (stop : Nat) : List Token → Nat
  | [] => stop
  | t :: _ => t.span.start

/-- Expressions with commas between them, up to a closing mark, whose span comes with them. -/
def moreItems (self : Reader Expr) (close : Lexeme) : Nat → Reader (List Expr × Span)
  | fuel + 1, ⟨.comma, _⟩ :: rest =>
    match self rest with
    | some (item, rest) =>
      match moreItems self close fuel rest with
      | some ((items, s), rest) => some ((item :: items, s), rest)
      | none => none
    | none => none
  | _, t :: rest => if t.lexeme = close then some (([], t.span), rest) else none
  | _, [] => none

/-- The items behind an opening mark. There may be none, but no comma without an item behind it. -/
def items (self : Reader Expr) (close : Lexeme) : Reader (List Expr × Span)
  | t :: rest =>
    if t.lexeme = close then some (([], t.span), rest)
    else match self (t :: rest) with
      | some (item, rest) =>
        match moreItems self close rest.length rest with
        | some ((items, s), rest) => some ((item :: items, s), rest)
        | none => none
      | none => none
  | [] => none

/-- The four words that are literals where an expression is expected. -/
def keyword? (span : Span) (name : String) : Option Expr :=
  if name = "null" then some (.null span)
  else if name = "undefined" then some (.literal span .undefined)
  else if name = "true" then some (.literal span (.bool true))
  else if name = "false" then some (.literal span (.bool false))
  else none

/-- Numerals and scopes without a meaning stand as `null` here. `Token.fault?` finds them. -/
def numeral (span : Span) (digits : List Char) : Expr :=
  match Numeral.value? digits with
  | some value => .literal span value
  | none => .null span

def reference (span : Span) (scope name : String) : Expr :=
  match Scope.ofKeyword? scope with
  | some scope => .ref span scope name
  | none => .null span

/-- Literals, references, lists, calls, and expressions in parentheses, which keep their own span. -/
def primary (self : Reader Expr) : Reader Expr
  | ⟨.word name, s⟩ :: rest =>
    match keyword? s name with
    | some e => some (e, rest)
    | none =>
      match rest with
      | ⟨.openParen, _⟩ :: rest =>
        match items self .closeParen rest with
        | some ((args, last), rest) => some (.call (s.merge last) name args, rest)
        | none => none
      | _ => none
  | ⟨.numeral digits, s⟩ :: rest => some (numeral s digits, rest)
  | ⟨.quoted content, s⟩ :: rest => some (.literal s (.string content), rest)
  | ⟨.ref scope name, s⟩ :: rest => some (reference s scope name, rest)
  | ⟨.openBracket, s⟩ :: rest =>
    match items self .closeBracket rest with
    | some ((es, last), rest) => some (.list (s.merge last) es, rest)
    | none => none
  | ⟨.openParen, _⟩ :: rest =>
    match self rest with
    | some (e, ⟨.closeParen, _⟩ :: rest) => some (e, rest)
    | _ => none
  | _ => none

/-- An index behind its opening bracket. -/
def index? (self : Reader Expr) (base : Expr) (safe : Bool) : Reader Expr := fun tokens =>
  match self tokens with
  | some (key, ⟨.closeBracket, s⟩ :: rest) => some (.index (base.span.merge s) base key safe, rest)
  | _ => none

/-- One member access or assertion behind an expression. -/
def suffix? (self : Reader Expr) (e : Expr) : Reader Expr
  | ⟨.dot, _⟩ :: ⟨.word name, s⟩ :: rest => some (.field (e.span.merge s) e name false, rest)
  | ⟨.safeDot, _⟩ :: ⟨.word name, s⟩ :: rest => some (.field (e.span.merge s) e name true, rest)
  | ⟨.openBracket, _⟩ :: rest => index? self e false rest
  | ⟨.question true, _⟩ :: ⟨.openBracket, _⟩ :: rest => index? self e true rest
  | ⟨.bang, s⟩ :: rest => some (.unary (e.span.merge s) .assertPresent e, rest)
  | _ => none

/-- As many of them as there are. -/
def suffixes (self : Reader Expr) : Nat → Expr → List Token → Expr × List Token
  | 0, e, tokens => (e, tokens)
  | fuel + 1, e, tokens =>
    match suffix? self e tokens with
    | some (e, rest) => suffixes self fuel e rest
    | none => (e, tokens)

/-- The signs in front of an operand. -/
def signs : List Token → List (Operator × Span) × List Token
  | ⟨.bang, s⟩ :: rest =>
    let (more, rest) := signs rest
    ((.not, s) :: more, rest)
  | ⟨.operator .minus, s⟩ :: rest =>
    let (more, rest) := signs rest
    ((.negate, s) :: more, rest)
  | tokens => ([], tokens)

/-- The sign next to the operand applies first. -/
def applySigns (signs : List (Operator × Span)) (e : Expr) : Expr :=
  signs.foldr (fun sign e => .unary (sign.2.merge e.span) sign.1 e) e

def operand (self : Reader Expr) : Reader Expr := fun tokens =>
  let (signs, rest) := signs tokens
  match primary self rest with
  | some (e, rest) =>
    let (e, rest) := suffixes self rest.length e rest
    some (applySigns signs e, rest)
  | none => none

/-- Pairs of a binary operator and its right operand. -/
def chain (self : Reader Expr) : Nat → List Token → List (Operator × Expr) × List Token
  | fuel + 1, ⟨.operator op, s⟩ :: rest =>
    match operand self rest with
    | some (e, rest) =>
      let (more, rest) := chain self fuel rest
      ((op, e) :: more, rest)
    | none => ([], ⟨.operator op, s⟩ :: rest)
  | _, tokens => ([], tokens)

/-- Operands with binary operators between them, grouped by binding strength. -/
def binary (self : Reader Expr) : Reader Expr := fun tokens =>
  match operand self tokens with
  | some (first, rest) =>
    let (pairs, rest) := chain self rest.length rest
    some (group Expr.join first pairs, rest)
  | none => none

/-- The branches of a conditional behind its question mark. -/
def branches (self : Reader Expr) : Reader (Expr × Expr) := fun tokens =>
  match self tokens with
  | some (yes, ⟨.colon, _⟩ :: rest) =>
    match self rest with
    | some (no, rest) => some ((yes, no), rest)
    | none => none
  | _ => none

/-- A chain of operators, and the branches of a conditional if a question mark follows. A conditional
reaches from its first token to the token behind it, or to the end of the text. -/
def level (stop : Nat) (self : Reader Expr) : Reader Expr := fun tokens =>
  match binary self tokens with
  | some (condition, ⟨.question glued, s⟩ :: rest) =>
    match branches self rest with
    | some ((yes, no), after) =>
      some (.choose ⟨nextStart stop tokens, nextStart stop after⟩ condition yes no, after)
    | none => some (condition, ⟨.question glued, s⟩ :: rest)
  | result => result

/-- Expressions nested at most `depth` deep. -/
def expr (stop : Nat) : Nat → Reader Expr
  | 0 => fun _ => none
  | depth + 1 => level stop (expr stop depth)

/-- The expression that the tokens of a text of `stop` bytes make up together. It cannot be nested
deeper than there are tokens. -/
def whole? (stop : Nat) (tokens : List Token) : Option Expr :=
  match expr stop (tokens.length + 1) tokens with
  | some (e, []) => some e
  | _ => none

end Grammar

end LazyExpr
