import LazyExpr.Syntax.Read

namespace LazyExpr

/-- What is made of tokens that the grammar has matched, or the complaint at which that was given up. The readers
below are those of the grammar. Each builds what it matches, part by part, and gives up at the first part that
cannot be built. What is matched does not depend on that. -/
abbrev Draft (α : Type) := Except ReadError α

namespace Draft

open Grammar (keyword? nextStart signs applySigns)

def numeral (span : Span) (digits : List Char) : Draft Expr :=
  match Numeral.value? digits with
  | some value => pure (.literal span value)
  | none => throw (.numeral span (String.ofList digits))

def reference (span : Span) (scope name : String) : Draft Expr :=
  match Scope.ofKeyword? scope with
  | some known => pure (.ref span known name)
  | none => throw (.scope (scopeSpan span scope) scope)

/-- Items are built in the order in which they are written. -/
def moreItems (self : Reader (Draft Expr)) (close : Lexeme) : Nat → Reader (Draft (List Expr × Span))
  | fuel + 1, ⟨.comma, _⟩ :: rest =>
    match self rest with
    | some (item, rest) =>
      match moreItems self close fuel rest with
      | some (more, rest) =>
        some (do
          let item ← item
          let (items, s) ← more
          pure (item :: items, s), rest)
      | none => none
    | none => none
  | _, t :: rest => if t.lexeme = close then some (pure ([], t.span), rest) else none
  | _, [] => none

def items (self : Reader (Draft Expr)) (close : Lexeme) : Reader (Draft (List Expr × Span))
  | t :: rest =>
    if t.lexeme = close then some (pure ([], t.span), rest)
    else match self (t :: rest) with
      | some (item, rest) =>
        match moreItems self close rest.length rest with
        | some (more, rest) =>
          some (do
            let item ← item
            let (items, s) ← more
            pure (item :: items, s), rest)
        | none => none
      | none => none
  | [] => none

def primary (self : Reader (Draft Expr)) : Reader (Draft Expr)
  | ⟨.word name, s⟩ :: rest =>
    match keyword? s name with
    | some e => some (pure e, rest)
    | none =>
      match rest with
      | ⟨.openParen, _⟩ :: rest =>
        match items self .closeParen rest with
        | some (found, rest) =>
          some (do
            let (args, last) ← found
            pure (.call (s.merge last) name args), rest)
        | none => none
      | _ => none
  | ⟨.numeral digits, s⟩ :: rest => some (numeral s digits, rest)
  | ⟨.quoted content, s⟩ :: rest => some (pure (.literal s (.string content)), rest)
  | ⟨.ref scope name, s⟩ :: rest => some (reference s scope name, rest)
  | ⟨.openBracket, s⟩ :: rest =>
    match items self .closeBracket rest with
    | some (found, rest) =>
      some (do
        let (es, last) ← found
        pure (.list (s.merge last) es), rest)
    | none => none
  | ⟨.openParen, _⟩ :: rest =>
    match self rest with
    | some (e, ⟨.closeParen, _⟩ :: rest) => some (e, rest)
    | _ => none
  | _ => none

/-- An index is built after what it is applied to. -/
def index? (self : Reader (Draft Expr)) (base : Draft Expr) (safe : Bool) : Reader (Draft Expr) := fun tokens =>
  match self tokens with
  | some (key, ⟨.closeBracket, s⟩ :: rest) =>
    some (do
      let base ← base
      let key ← key
      pure (.index (base.span.merge s) base key safe), rest)
  | _ => none

def field (base : Draft Expr) (name : String) (s : Span) (safe : Bool) : Draft Expr := do
  let base ← base
  pure (.field (base.span.merge s) base name safe)

def suffix? (self : Reader (Draft Expr)) (e : Draft Expr) : Reader (Draft Expr)
  | ⟨.dot, _⟩ :: ⟨.word name, s⟩ :: rest => some (field e name s false, rest)
  | ⟨.safeDot, _⟩ :: ⟨.word name, s⟩ :: rest => some (field e name s true, rest)
  | ⟨.openBracket, _⟩ :: rest => index? self e false rest
  | ⟨.question true, _⟩ :: ⟨.openBracket, _⟩ :: rest => index? self e true rest
  | ⟨.bang, s⟩ :: rest =>
    some (do
      let e ← e
      pure (.unary (e.span.merge s) .assertPresent e), rest)
  | _ => none

def suffixes (self : Reader (Draft Expr)) : Nat → Draft Expr → List Token → Draft Expr × List Token
  | 0, e, tokens => (e, tokens)
  | fuel + 1, e, tokens =>
    match suffix? self e tokens with
    | some (e, rest) => suffixes self fuel e rest
    | none => (e, tokens)

/-- Signs are applied when their operand has been built. -/
def operand (self : Reader (Draft Expr)) : Reader (Draft Expr) := fun tokens =>
  let (signs, rest) := signs tokens
  match primary self rest with
  | some (e, rest) =>
    let (e, rest) := suffixes self rest.length e rest
    some (do
      let e ← e
      pure (applySigns signs e), rest)
  | none => none

/-- The operands of a chain are built one by one, before they are grouped. -/
def chain (self : Reader (Draft Expr)) : Nat → List Token → Draft (List (Operator × Expr)) × List Token
  | fuel + 1, ⟨.operator op, s⟩ :: rest =>
    match operand self rest with
    | some (e, rest) =>
      let (more, rest) := chain self fuel rest
      (do
        let e ← e
        let pairs ← more
        pure ((op, e) :: pairs), rest)
    | none => (pure [], ⟨.operator op, s⟩ :: rest)
  | _, tokens => (pure [], tokens)

def binary (self : Reader (Draft Expr)) : Reader (Draft Expr) := fun tokens =>
  match operand self tokens with
  | some (first, rest) =>
    let (more, rest) := chain self rest.length rest
    some (do
      let first ← first
      let pairs ← more
      pure (group Expr.join first pairs), rest)
  | none => none

def branches (self : Reader (Draft Expr)) : Reader (Draft (Expr × Expr)) := fun tokens =>
  match self tokens with
  | some (yes, ⟨.colon, _⟩ :: rest) =>
    match self rest with
    | some (no, rest) =>
      some (do
        let yes ← yes
        let no ← no
        pure (yes, no), rest)
    | none => none
  | _ => none

/-- The condition is built first, then one branch after the other. -/
def level (stop : Nat) (self : Reader (Draft Expr)) : Reader (Draft Expr) := fun tokens =>
  match binary self tokens with
  | some (condition, ⟨.question glued, s⟩ :: rest) =>
    match branches self rest with
    | some (both, after) =>
      some (do
        let condition ← condition
        let (yes, no) ← both
        pure (.choose ⟨nextStart stop tokens, nextStart stop after⟩ condition yes no), after)
    | none => some (condition, ⟨.question glued, s⟩ :: rest)
  | result => result

def expr (stop : Nat) : Nat → Reader (Draft Expr)
  | 0 => fun _ => none
  | depth + 1 => level stop (expr stop depth)

def whole? (stop : Nat) (tokens : List Token) : Option (Draft Expr) :=
  match expr stop (tokens.length + 1) tokens with
  | some (e, []) => some e
  | _ => none

/-- What is made of these characters if the grammar matches them. -/
def match? (source : List Char) : Option (Draft Expr) :=
  match Token.all? source with
  | some tokens => whole? (byteSize source) tokens
  | none => none

/-- Reads an expression by building it from what the grammar has matched. -/
def read (source : String) : Draft Expr :=
  match match? source.toList with
  | none =>
    let m := Mismatch.of source.toList
    .error (.mismatch m.offset (m.report source.toList))
  | some draft => draft

end Draft

end LazyExpr
