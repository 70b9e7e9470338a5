import LazyExpr.Proofs.Syntax.Writing
import LazyExpr.Tree.Printable

namespace LazyExpr

namespace Operator

/-- What an operand has to be on that side of its operator by the rules of the grammar. -/
def slot : Operator → Side → Rank
  | assertPresent, _ => .member
  | negate, _ | not, _ => .operand
  | choose, .left => .chain .lowest
  | choose, .right => .whole
  | op, .left => .chain op.level
  | op, .right => .chain op.rightLevel

theorem slot_left {op : Operator} (infixed : op.arity = 2) : op.slot .left = .chain op.level := by
  cases op <;> first | rfl | cases infixed

theorem slot_right {op : Operator} (infixed : op.arity = 2) : op.slot .right = .chain op.rightLevel := by
  cases op <;> first | rfl | cases infixed

end Operator

namespace Printable

/-- What the text of a printable is by the rules of the grammar. -/
def rank : Printable → Rank
  | unary op _ => if op.isPostfix then .member else .operand
  | binary op _ _ => .chain op.level
  | ternary _ _ _ _ => .whole
  | leaf _ _ | atom _ => .member

/-- The operator at the root has as many operands as it takes. -/
def Regular : Printable → Prop
  | unary op _ => op.arity = 1
  | binary op _ _ => op.arity = 2
  | ternary op _ _ _ => op = .choose
  | leaf _ _ | atom _ => True

theorem Regular.rank_eq {p : Printable} {op : Operator} (regular : p.Regular) (root : p.operator? = some op) :
    p.rank = op.rank := by
  cases p with
  | unary inner operand =>
    cases root
    cases op <;> first | rfl | cases regular
  | binary inner left right =>
    cases root
    exact (Operator.rank_of_binary regular).symm
  | ternary inner condition yes no =>
    cases root
    cases regular
    rfl
  | leaf => cases root
  | atom => cases root

/-- A prefix operator has its operand on the right, the postfix one on the left. -/
theorem render_unary (op : Operator) (p : Printable) :
    let operand := parenthesized (isProtected op (if op.isPostfix then .left else .right) p) p.render
    (unary op p).render = if op.isPostfix then operand ++ op.token else op.token ++ operand := by
  intro operand
  rw [render]
  cases mark : op.isPostfix <;> simp [operand, mark]

end Printable

namespace Phrase

variable {ls : List Lexeme} {e : Expr}

theorem slot_of_operand (phrase : Phrase .operand ls e) {op : Operator} (loose : op ≠ .assertPresent)
    (side : Side) :
    Phrase (op.slot side) ls e := by
  cases op with
  | assertPresent => exact absurd rfl loose
  | negate => exact phrase
  | not => exact phrase
  | _ => cases side <;> first | exact .ofOperand _ phrase | exact .ofChain (.ofOperand _ phrase)

theorem slot_of_member (phrase : Phrase .member ls e) (op : Operator) (side : Side) :
    Phrase (op.slot side) ls e := by
  by_cases tight : op = .assertPresent
  · subst tight
    exact phrase
  · exact (Phrase.ofMember phrase).slot_of_operand tight side

/-- A chain of operators that binds tightly enough, and is not grouped the other way, is an operand of an
infix operator. -/
theorem slot_of_chain {inner op : Operator} {side : Side} (infixed : inner.arity = 2) (outer : op.arity = 2)
    (phrase : Phrase (.chain inner.level) ls e) (tight : op.level ≤ inner.level)
    (grouped : inner.level = op.level → side.regroups inner.associativity = false) :
    Phrase (op.slot side) ls e := by
  cases side with
  | left =>
    rw [Operator.slot_left outer]
    exact phrase.loosen tight
  | right =>
    rw [Operator.associativity_of_binary infixed] at grouped
    have apart : inner.level ≠ op.level := fun same => absurd (grouped same) (by decide)
    rw [Operator.slot_right outer, Operator.rightLevel_of_binary outer]
    exact phrase.loosen (Nat.lt_of_le_of_ne tight apart.symm)

/-- An operand that gets no parentheses fits where it stands. -/
theorem slot_of_bare {p : Printable} (regular : p.Regular) {op : Operator} {side : Side}
    (bare : Printable.isProtected op side p = false) (phrase : Phrase p.rank ls e) :
    Phrase (op.slot side) ls e := by
  cases p with
  | leaf => exact phrase.slot_of_member op side
  | atom => exact phrase.slot_of_member op side
  | unary inner operand =>
    by_cases asserted : inner = .assertPresent
    · subst asserted
      exact phrase.slot_of_member op side
    · have signed : Phrase .operand ls e := by
        cases inner <;> first | exact phrase | exact absurd rfl asserted
      refine signed.slot_of_operand ?_ side
      rintro rfl
      cases inner <;> first | cases bare | exact asserted rfl
  | ternary inner condition yes no =>
    cases show inner = .choose from regular
    cases op with
    | choose =>
      cases side with
      | left => cases bare
      | right => exact phrase
    | _ => cases bare
  | binary inner left right =>
    have infixed : inner.arity = 2 := regular
    simp only [Printable.isProtected, Bool.or_eq_false_iff, decide_eq_false_iff_not, Nat.not_lt,
      Bool.and_eq_false_iff, beq_eq_false_iff_ne] at bare
    obtain ⟨tight, grouped⟩ := bare
    have below := Operator.level_lt_sign infixed
    have bound {least : Level} (high : Operator.negate.level ≤ least) (tight : least ≤ inner.level) : False :=
      absurd (Nat.le_trans high tight) (Nat.not_le.mpr below)
    cases op with
    | assertPresent => exact (bound (by decide) tight).elim
    | negate => exact (bound (by decide) tight).elim
    | not => exact (bound (by decide) tight).elim
    | choose =>
      cases side with
      | left => exact phrase.loosen tight
      | right => exact .ofChain (phrase.loosen tight)
    | _ => exact slot_of_chain infixed rfl phrase tight fun same => grouped.resolve_left (absurd same)

end Phrase

end LazyExpr
