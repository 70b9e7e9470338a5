namespace LazyExpr

/-- The rules of the grammar that a report of a mismatch can name. -/
inductive Rule
  | endOfText
  | expression
  | expr
  | binary
  | binaryOperator
  | unary
  | unaryOperator
  | suffixed
  | field
  | safeField
  | index
  | safeIndex
  | assertPresent
  | nullLiteral
  | undefinedLiteral
  | boolLiteral
  | number
  | quotedString
  | stringInner
  | reference
  | scope
  | identifier
  | listLiteral
  | call
  deriving DecidableEq, Repr

/-- What is matched against characters. Blanks are skipped only where a pattern says so. -/
inductive Pattern
  | text (s : String)
  | one (accepts : Char → Bool)
  | endOfText
  | blanks
  | rule (r : Rule)
  | seq (first second : Pattern)
  | either (first second : Pattern)
  | optional (p : Pattern)
  | many (p : Pattern)
  | absent (p : Pattern)

namespace Pattern

/-- One after the other, without blanks between them. -/
def joined : List Pattern → Pattern
  | [] => text ""
  | [p] => p
  | p :: rest => seq p (joined rest)

/-- One after the other, with blanks allowed between them. -/
def spaced : List Pattern → Pattern
  | [] => text ""
  | [p] => p
  | p :: rest => seq p (seq blanks (spaced rest))

def firstOf : List Pattern → Pattern
  | [] => absent (text "")
  | [p] => p
  | p :: rest => either p (firstOf rest)

/-- Any number of rounds with blanks allowed between them. Blanks behind the last round stay. -/
def rounds (p : Pattern) : Pattern := optional (seq p (many (seq blanks p)))

/-- At least one character of a class, and then as many as there are. -/
def atLeastOne (accepts : Char → Bool) : Pattern := seq (one accepts) (many (one accepts))

end Pattern

namespace Rule

/-- Every rule, in the order in which a report lists them. -/
def all : List Rule :=
  [endOfText, expression, expr, binary, binaryOperator, unary, unaryOperator, suffixed, field, safeField,
    index, safeIndex, assertPresent, nullLiteral, undefinedLiteral, boolLiteral, number, quotedString,
    stringInner, reference, scope, identifier, listLiteral, call]

/-- The name of a rule in a report. -/
def name : Rule → String
  | endOfText => "EOI"
  | expression => "expression"
  | expr => "expr"
  | binary => "binary"
  | binaryOperator => "bin_op"
  | unary => "unary"
  | unaryOperator => "unary_op"
  | suffixed => "postfix"
  | field => "field"
  | safeField => "null_safe_field"
  | index => "index"
  | safeIndex => "null_safe_index"
  | assertPresent => "assert_non_null"
  | nullLiteral => "null_lit"
  | undefinedLiteral => "undefined_lit"
  | boolLiteral => "bool_lit"
  | number => "number"
  | quotedString => "quoted_string"
  | stringInner => "string_inner"
  | reference => "variable"
  | scope => "scope"
  | identifier => "identifier"
  | listLiteral => "list_literal"
  | call => "function_call"

/-- Inside an atomic rule no further rule is reported. -/
def isAtomic : Rule → Bool
  | assertPresent | nullLiteral | undefinedLiteral | boolLiteral | number | stringInner | scope
  | identifier => true
  | _ => false

open Pattern

/-- Expressions with commas between them, or nothing. -/
def itemsPattern : Pattern :=
  optional (spaced [rule expr, rounds (spaced [text ",", rule expr])])

/-- A word does not end in front of another letter, digit or underscore. -/
def wordEnd : Pattern := absent (one fun c => c.isAlphanum || c = '_')

/-- The body of each rule, alternatives in the order in which they are tried. -/
def body : Rule → Pattern
  | endOfText => .endOfText
  | expression => spaced [text "", rule expr, rule endOfText]
  | expr => spaced [rule binary, optional (spaced [text "?", rule expr, text ":", rule expr])]
  | binary => spaced [rule unary, rounds (spaced [rule binaryOperator, rule unary])]
  | binaryOperator =>
    firstOf (["??", "||", "&&", "==", "!=", "<=", ">=", "<<", ">>", "<", ">", "+", "-", "*", "/", "%",
      "&", "^", "|"].map text)
  | unary => spaced [rounds (rule unaryOperator), rule suffixed]
  | unaryOperator => either (text "!") (text "-")
  | suffixed =>
    spaced [
      firstOf [rule nullLiteral, rule undefinedLiteral, rule boolLiteral, rule number, rule quotedString,
        rule reference, rule listLiteral, rule call, spaced [text "(", rule expr, text ")"]],
      rounds (firstOf [rule safeField, rule safeIndex, rule field, rule index, rule assertPresent])]
  | field => spaced [text ".", rule identifier]
  | safeField => spaced [text "?.", rule identifier]
  | index => spaced [text "[", rule expr, text "]"]
  | safeIndex => spaced [text "?[", rule expr, text "]"]
  | assertPresent => joined [text "!", absent (text "=")]
  | nullLiteral => joined [text "null", wordEnd]
  | undefinedLiteral => joined [text "undefined", wordEnd]
  | boolLiteral => joined [either (text "true") (text "false"), wordEnd]
  | number =>
    joined [atLeastOne Char.isDigit, optional (joined [text ".", atLeastOne Char.isDigit])]
  | quotedString => joined [text "\"", rule stringInner, text "\""]
  | stringInner =>
    many (either (joined [text "\\", one fun _ => true]) (one fun c => c ≠ '"' && c ≠ '\\'))
  | reference =>
    joined [text "\x7b\x7b", rule scope, text ":", rule identifier, text "\x7d\x7d"]
  | scope => rule identifier
  | identifier =>
    joined [one fun c => c.isAlpha || c = '_', many (one fun c => c.isAlphanum || c = '_')]
  | listLiteral => spaced [text "[", itemsPattern, text "]"]
  | call => spaced [rule identifier, text "(", itemsPattern, text ")"]

end Rule

end LazyExpr
