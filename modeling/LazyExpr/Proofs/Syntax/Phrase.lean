import LazyExpr.Proofs.Syntax.Climbing
import LazyExpr.Syntax.Grammar

namespace LazyExpr

/-- What the rules of the grammar are about, from what binds tightest to whole expressions. A chain is
made of operators that bind at least as tightly as `least`. -/
inductive Rank
  | primary
  | member
  | operand
  | chain (least : Level)
  | whole

namespace Lexeme

/-- Items with commas between them. -/
def separated : List (List Lexeme) → List Lexeme
  | [] => []
  | item :: rest => item ++ rest.flatMap (.comma :: ·)

theorem length_le_flatMap_comma (items : List (List Lexeme)) :
    items.length ≤ (items.flatMap (comma :: ·)).length := by
  induction items with
  | nil => exact Nat.le_refl _
  | cons item items ih =>
    simp only [List.flatMap_cons, List.length_append, List.length_cons]
    omega

theorem length_le_separated {items : List (List Lexeme)} {item : List Lexeme} (member : item ∈ items) :
    item.length ≤ (separated items).length := by
  rcases items with _ | ⟨first, items⟩
  · cases member
  · simp only [separated, List.length_append]
    rcases List.mem_cons.mp member with rfl | member
    · omega
    · obtain ⟨before, after, rfl⟩ := List.append_of_mem member
      simp only [List.flatMap_append, List.flatMap_cons, List.length_append, List.length_cons]
      omega

theorem forall_mem_separated {P : Lexeme → Prop} (mark : P comma) {items : List (List Lexeme)}
    (all : ∀ item ∈ items, ∀ lexeme ∈ item, P lexeme) : ∀ lexeme ∈ separated items, P lexeme := by
  rcases items with _ | ⟨first, items⟩
  · nofun
  · obtain ⟨here, others⟩ := List.forall_mem_cons.mp all
    refine List.forall_mem_append.mpr ⟨here, fun lexeme member => ?_⟩
    obtain ⟨item, among, inside⟩ := List.mem_flatMap.mp member
    exact List.forall_mem_cons.mpr ⟨mark, others item among⟩ lexeme inside

/-- What introduces a member name. -/
def access (safe : Bool) : Lexeme := if safe then .safeDot else .dot

/-- What introduces an index. -/
def opening (safe : Bool) : List Lexeme := if safe then [.question true, .openBracket] else [.openBracket]

/-- What may stand behind an expression that is part of another one, or of a list or a call. -/
def closes : Lexeme → Bool
  | comma | colon | closeParen | closeBracket => true
  | _ => false

/-- What may stand behind a chain of operators, where it might be the condition of a conditional. -/
def endsChain : Lexeme → Bool
  | question false => true
  | other => other.closes

/-- The next lexeme, if there is one, is of that kind. -/
def Next (kind : Lexeme → Bool) (rest : List Lexeme) : Prop := ∀ lexeme ∈ rest.head?, kind lexeme

theorem Next.endsChain {rest : List Lexeme} (next : Next closes rest) : Next endsChain rest := by
  intro lexeme member
  have closing := next lexeme member
  cases lexeme <;> first | exact closing | cases closing

end Lexeme

open Lexeme (separated access opening)

/-- The first operand of all, without what is done to it. -/
def Expr.leftmost : Expr → Expr
  | field _ base _ _ | index _ base _ _ => base.leftmost
  | unary _ _ operand => operand.leftmost
  | coalesce _ left _ | binary _ _ left _ => left.leftmost
  | choose _ condition _ _ => condition.leftmost
  | e => e

/-- The bracket that an expression begins with, if it begins with one, holds no single item, so that it is no
index. -/
def Lexeme.Unindexed (ls : List Lexeme) (e : Expr) : Prop :=
  ls.head? = some .openBracket → ∀ s item, e.leftmost ≠ .list s [item]

/-- The rules of the grammar: these lexemes are an expression of that rank, spans left out. They are unambiguous,
with grouping decided by rank, and a bracket at a question mark taken for an index where it can be one. -/
inductive Phrase : Rank → List Lexeme → Expr → Prop
  | null : Phrase .primary [.word "null"] (.null .synthetic)
  | undefined : Phrase .primary [.word "undefined"] (.literal .synthetic .undefined)
  | bool (b : Bool) : Phrase .primary [.word (if b then "true" else "false")] (.literal .synthetic (.bool b))
  | numeral {digits : List Char} {value : Value} : Numeral.value? digits = some value →
      Phrase .primary [.numeral digits] (.literal .synthetic value)
  | quoted (content : String) : Phrase .primary [.quoted content] (.literal .synthetic (.string content))
  | ref (scope : Scope) (name : String) :
      Phrase .primary [.ref scope.keyword name] (.ref .synthetic scope name)
  | list {items : List (List Lexeme × Expr)} : (∀ item ∈ items, Phrase .whole item.1 item.2) →
      Phrase .primary (.openBracket :: (separated (items.map (·.1)) ++ [.closeBracket]))
        (.list .synthetic (items.map (·.2)))
  | call {name : String} {items : List (List Lexeme × Expr)} : Grammar.keyword? .synthetic name = none →
      (∀ item ∈ items, Phrase .whole item.1 item.2) →
      Phrase .primary (.word name :: .openParen :: (separated (items.map (·.1)) ++ [.closeParen]))
        (.call .synthetic name (items.map (·.2)))
  | parens {inner : List Lexeme} {e : Expr} : Phrase .whole inner e →
      Phrase .primary (.openParen :: (inner ++ [.closeParen])) e
  | ofPrimary {ls : List Lexeme} {e : Expr} : Phrase .primary ls e → Phrase .member ls e
  | field {ls : List Lexeme} {base : Expr} (name : String) (safe : Bool) : Phrase .member ls base →
      Phrase .member (ls ++ [access safe, .word name]) (.field .synthetic base name safe)
  | index {ls ks : List Lexeme} {base key : Expr} (safe : Bool) : Phrase .member ls base →
      Phrase .whole ks key →
      Phrase .member (ls ++ (opening safe ++ (ks ++ [.closeBracket]))) (.index .synthetic base key safe)
  | assert {ls : List Lexeme} {e : Expr} : Phrase .member ls e →
      Phrase .member (ls ++ [.bang]) (.unary .synthetic .assertPresent e)
  | ofMember {ls : List Lexeme} {e : Expr} : Phrase .member ls e → Phrase .operand ls e
  | not {ls : List Lexeme} {e : Expr} : Phrase .operand ls e →
      Phrase .operand (.bang :: ls) (.unary .synthetic .not e)
  | negate {ls : List Lexeme} {e : Expr} : Phrase .operand ls e →
      Phrase .operand (.operator .minus :: ls) (.unary .synthetic .negate e)
  | ofOperand {ls : List Lexeme} {e : Expr} (least : Level) : Phrase .operand ls e →
      Phrase (.chain least) ls e
  | binary {ls rs : List Lexeme} {left right : Expr} {op : Operator} {least : Level} : op.arity = 2 →
      least ≤ op.level → Phrase (.chain op.level) ls left → Phrase (.chain op.rightLevel) rs right →
      Phrase (.chain least) (ls ++ .operator op :: rs) (.join op left right)
  | ofChain {ls : List Lexeme} {e : Expr} : Phrase (.chain .lowest) ls e → Phrase .whole ls e
  | choose {cs ys ns : List Lexeme} {condition yes no : Expr} {glued : Bool} :
      Phrase (.chain .lowest) cs condition → Phrase .whole ys yes → Phrase .whole ns no →
      (glued = true → Lexeme.Unindexed ys yes) →
      Phrase .whole (cs ++ .question glued :: (ys ++ .colon :: ns)) (.choose .synthetic condition yes no)

namespace Phrase

variable {rank : Rank} {ls : List Lexeme} {e : Expr}

theorem loosen {tight least : Level} (phrase : Phrase (.chain tight) ls e) (looser : least ≤ tight) :
    Phrase (.chain least) ls e := by
  cases phrase with
  | ofOperand _ operand => exact .ofOperand least operand
  | binary infixed above left right => exact .binary infixed (Nat.le_trans looser above) left right

/-- Every phrase is a whole expression. -/
theorem whole (phrase : Phrase rank ls e) : Phrase .whole ls e := by
  cases rank with
  | primary => exact .ofChain (.ofOperand _ (.ofMember (.ofPrimary phrase)))
  | member => exact .ofChain (.ofOperand _ (.ofMember phrase))
  | operand => exact .ofChain (.ofOperand _ phrase)
  | chain least =>
    cases phrase with
    | ofOperand _ operand => exact .ofChain (.ofOperand _ operand)
    | @binary _ _ _ _ op _ infixed _ left right => exact .ofChain (.binary infixed op.lowest_le_level left right)
  | whole => exact phrase

/-- No phrase begins with a closing mark. -/
theorem opens (phrase : Phrase rank ls e) :
    ∃ first rest, ls = first :: rest ∧ first ≠ .closeParen ∧ first ≠ .closeBracket := by
  induction phrase with
  | ofPrimary _ ih | ofMember _ ih | ofOperand _ _ ih | ofChain _ ih => exact ih
  | field _ _ _ ih | index _ _ _ ih | assert _ ih | binary _ _ _ _ ih | choose _ _ _ _ ih =>
    obtain ⟨first, rest, same, distinct⟩ := ih
    rw [same]
    exact ⟨first, _, rfl, distinct⟩
  | _ => exact ⟨_, _, rfl, nofun, nofun⟩

theorem head?_append (phrase : Phrase rank ls e) (more : List Lexeme) : (ls ++ more).head? = ls.head? := by
  obtain ⟨first, behind, rfl, _⟩ := phrase.opens
  rfl

/-- The lexemes are those of a list with more behind it, and the expression begins with that list. -/
def ListAhead (ls : List Lexeme) (e : Expr) : Prop :=
  ∃ (items : List (List Lexeme × Expr)) (more : List Lexeme), (∀ item ∈ items, Phrase .whole item.1 item.2) ∧
    ls = .openBracket :: (separated (items.map (·.1)) ++ .closeBracket :: more) ∧
    e.leftmost = .list .synthetic (items.map (·.2))

theorem ListAhead.append (ahead : ListAhead ls e) (more : List Lexeme) {longer : Expr}
    (same : longer.leftmost = e.leftmost) : ListAhead (ls ++ more) longer := by
  obtain ⟨items, behind, phrases, rfl, leftmost⟩ := ahead
  refine ⟨items, behind ++ more, phrases, ?_, same.trans leftmost⟩
  rw [List.cons_append, List.append_assoc, List.cons_append]

/-- What begins with a bracket begins with a list. -/
theorem list_ahead (phrase : Phrase rank ls e) (bracket : ls.head? = some .openBracket) : ListAhead ls e := by
  induction phrase with
  | @list items phrases => exact ⟨items, [], phrases, rfl, rfl⟩
  | ofPrimary _ ih | ofMember _ ih | ofOperand _ _ ih | ofChain _ ih => exact ih bracket
  | field _ _ phrase ih => exact (ih (phrase.head?_append _ ▸ bracket)).append _ rfl
  | index _ phrase _ ih => exact (ih (phrase.head?_append _ ▸ bracket)).append _ rfl
  | assert phrase ih => exact (ih (phrase.head?_append _ ▸ bracket)).append _ rfl
  | @binary _ _ left right op _ _ _ phrase _ ih =>
    refine (ih (phrase.head?_append _ ▸ bracket)).append _ ?_
    cases op <;> rfl
  | choose phrase _ _ _ ih => exact (ih (phrase.head?_append _ ▸ bracket)).append _ rfl
  | _ => cases bracket

theorem span (phrase : Phrase rank ls e) : e.span = .synthetic := by
  induction phrase with
  | parens _ ih | ofPrimary _ ih | ofMember _ ih | ofOperand _ _ ih | ofChain _ ih => exact ih
  | @binary _ _ left right op _ _ _ _ _ ihLeft ihRight =>
    have merged : left.span.merge right.span = .synthetic := by rw [ihLeft, ihRight]; rfl
    unfold Expr.join
    rw [merged]
    cases op <;> rfl
  | _ => rfl

end Phrase

/-- The operator at the root of an expression, if there is one. -/
def Expr.operator? : Expr → Option Operator
  | unary _ op _ | binary _ op _ _ => some op
  | coalesce _ _ _ => some .coalesce
  | choose _ _ _ _ => some .choose
  | null _ | literal _ _ | list _ _ | ref _ _ _ | field _ _ _ _ | index _ _ _ _ | call _ _ _ => none

theorem Expr.operator?_join (op : Operator) (left right : Expr) : (join op left right).operator? = some op := by
  cases op <;> rfl

/-- What the text of an operator with its operands is by the rules of the grammar. -/
def Operator.rank : Operator → Rank
  | assertPresent => .member
  | negate | not => .operand
  | choose => .whole
  | op => .chain op.level

theorem Operator.rank_of_binary {op : Operator} (infixed : op.arity = 2) : op.rank = .chain op.level := by
  cases op <;> first | rfl | cases infixed

/-- The rules for operators: the lexemes are an expression with that operator at its root and without
parentheses around it. -/
inductive Operation : Operator → List Lexeme → Expr → Prop
  | assert {ls : List Lexeme} {e : Expr} : Phrase .member ls e →
      Operation .assertPresent (ls ++ [.bang]) (.unary .synthetic .assertPresent e)
  | not {ls : List Lexeme} {e : Expr} : Phrase .operand ls e →
      Operation .not (.bang :: ls) (.unary .synthetic .not e)
  | negate {ls : List Lexeme} {e : Expr} : Phrase .operand ls e →
      Operation .negate (.operator .minus :: ls) (.unary .synthetic .negate e)
  | binary {ls rs : List Lexeme} {left right : Expr} {op : Operator} : op.arity = 2 →
      Phrase (.chain op.level) ls left → Phrase (.chain op.rightLevel) rs right →
      Operation op (ls ++ .operator op :: rs) (.join op left right)
  | choose {cs ys ns : List Lexeme} {condition yes no : Expr} : Phrase (.chain .lowest) cs condition →
      Phrase .whole ys yes → Phrase .whole ns no →
      Operation .choose (cs ++ .question false :: (ys ++ .colon :: ns)) (.choose .synthetic condition yes no)

namespace Operation

variable {op : Operator} {ls : List Lexeme} {e : Expr}

theorem phrase (operation : Operation op ls e) : Phrase op.rank ls e := by
  cases operation with
  | assert phrase => exact .assert phrase
  | not phrase => exact .not phrase
  | negate phrase => exact .negate phrase
  | binary infixed left right =>
    rw [Operator.rank_of_binary infixed]
    exact .binary infixed (Nat.le_refl _) left right
  | choose condition yes no => exact .choose condition yes no fun glued => absurd glued Bool.false_ne_true

theorem operator? (operation : Operation op ls e) : e.operator? = some op := by
  cases operation with
  | binary => exact Expr.operator?_join _ _ _
  | _ => rfl

/-- Different operators at the root make different expressions. -/
theorem ne_of_operator (operation : Operation op ls e) {other : Expr} {outer : Operator}
    (root : other.operator? = some outer) (apart : op ≠ outer) : e ≠ other := by
  rintro rfl
  exact apart (Option.some.inj (operation.operator?.symm.trans root))

end Operation

end LazyExpr
