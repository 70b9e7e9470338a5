import LazyExpr.Proofs.Syntax.Phrase

namespace LazyExpr

namespace Expr

theorem right_of_join {op : Operator} {left right left' right' : Expr}
    (same : join op left right = join op left' right') : right = right' := by
  cases op <;> simp_all [join]

theorem ne_join_right (op : Operator) (left right : Expr) : right ≠ join op left right := by
  intro same
  have size : sizeOf right = sizeOf (join op left right) := congrArg sizeOf same
  cases op <;> simp +arith [join] at size

theorem ne_condition (s : Span) (condition yes no : Expr) : condition ≠ choose s condition yes no := by
  intro same
  have size : sizeOf condition = sizeOf (choose s condition yes no) := congrArg sizeOf same
  simp +arith at size

end Expr

namespace Phrase

variable {rank : Rank} {ls rs : List Lexeme} {e r : Expr} {least : Level} {op : Operator}

/-- What goes on with a member behind a phrase belongs to the last operand in it. -/
theorem suffix_behind {tail : List Lexeme}
    (suffix : ∀ {ls e}, Phrase .member ls e → ∃ e', Phrase .member (ls ++ tail) e')
    (phrase : Phrase rank ls e) (loose : rank ≠ .primary) : ∃ e', Phrase rank (ls ++ tail) e' := by
  induction phrase with
  | ofPrimary phrase => exact suffix (.ofPrimary phrase)
  | field name safe phrase => exact suffix (.field name safe phrase)
  | index safe phrase key => exact suffix (.index safe phrase key)
  | assert phrase => exact suffix (.assert phrase)
  | ofMember _ ih =>
    obtain ⟨e', longer⟩ := ih nofun
    exact ⟨e', .ofMember longer⟩
  | not _ ih =>
    obtain ⟨e', longer⟩ := ih nofun
    exact ⟨_, .not longer⟩
  | negate _ ih =>
    obtain ⟨e', longer⟩ := ih nofun
    exact ⟨_, .negate longer⟩
  | ofOperand least _ ih =>
    obtain ⟨e', longer⟩ := ih nofun
    exact ⟨e', .ofOperand least longer⟩
  | @binary ls rs left right op least infixed above phrase _ _ ih =>
    obtain ⟨e', longer⟩ := ih nofun
    rw [List.append_assoc]
    exact ⟨_, .binary infixed above phrase longer⟩
  | ofChain _ ih =>
    obtain ⟨e', longer⟩ := ih nofun
    exact ⟨e', .ofChain longer⟩
  | @choose cs ys ns condition yes no glued phrase phraseYes _ unindexed _ _ ih =>
    obtain ⟨e', longer⟩ := ih nofun
    have whole := Phrase.choose phrase phraseYes longer unindexed
    exact ⟨_, by simpa using whole⟩
  | _ => exact absurd rfl loose

/-- A sign in front of a phrase belongs to the first operand in it. -/
theorem sign_ahead {sign : Lexeme} (signs : sign = .bang ∨ sign = .operator .minus) (phrase : Phrase rank ls e)
    (loose : rank ≠ .primary ∧ rank ≠ .member) : ∃ e', Phrase rank (sign :: ls) e' := by
  have signed {ls : List Lexeme} {e : Expr} (phrase : Phrase .operand ls e) :
      ∃ e', Phrase .operand (sign :: ls) e' := by
    rcases signs with rfl | rfl
    · exact ⟨_, .not phrase⟩
    · exact ⟨_, .negate phrase⟩
  induction phrase with
  | ofMember phrase => exact signed (.ofMember phrase)
  | not phrase => exact signed (.not phrase)
  | negate phrase => exact signed (.negate phrase)
  | ofOperand least phrase =>
    obtain ⟨e', longer⟩ := signed phrase
    exact ⟨e', .ofOperand least longer⟩
  | binary infixed above _ phrase ih =>
    obtain ⟨e', longer⟩ := ih ⟨nofun, nofun⟩
    exact ⟨_, .binary infixed above longer phrase⟩
  | ofChain _ ih =>
    obtain ⟨e', longer⟩ := ih ⟨nofun, nofun⟩
    exact ⟨e', .ofChain longer⟩
  | choose _ phraseYes phraseNo unindexed ih =>
    obtain ⟨e', longer⟩ := ih ⟨nofun, nofun⟩
    exact ⟨_, .choose longer phraseYes phraseNo unindexed⟩
  | ofPrimary => exact absurd rfl loose.2
  | field => exact absurd rfl loose.2
  | index => exact absurd rfl loose.2
  | assert => exact absurd rfl loose.2
  | _ => exact absurd rfl loose.1

/-- An operator and its right operand behind a chain take as much of its end for the left operand as binds
tightly enough. -/
theorem infix_behind (infixed : op.arity = 2) (right : Phrase (.chain op.rightLevel) rs r)
    (phrase : Phrase rank ls e) (tight : rank = .chain least) (above : least ≤ op.level) :
    ∃ e', Phrase (.chain least) (ls ++ .operator op :: rs) e' := by
  induction phrase generalizing least with
  | ofOperand _ phrase => exact ⟨_, .binary infixed above (.ofOperand _ phrase) right⟩
  | @binary as bs left last inner _ infixedInner aboveInner phrase phraseLast _ ih =>
    cases tight
    by_cases under : op.level ≤ inner.level
    · exact ⟨_, .binary infixed above (.binary infixedInner under phrase phraseLast) right⟩
    · have level : inner.rightLevel = inner.level + 1 := Operator.rightLevel_of_binary infixedInner
      obtain ⟨e', longer⟩ := ih rfl (by rw [level]; exact Nat.not_le.mp under)
      rw [List.append_assoc]
      exact ⟨_, .binary infixedInner aboveInner phrase longer⟩
  | _ => cases tight

/-- In front of a chain they take as much of its start for the right operand. -/
theorem infix_ahead (infixed : op.arity = 2) (left : Phrase (.chain op.level) rs r) (phrase : Phrase rank ls e)
    (tight : rank = .chain least) (above : least ≤ op.level) :
    ∃ e', Phrase (.chain least) (rs ++ .operator op :: ls) e' := by
  induction phrase generalizing least with
  | ofOperand _ phrase => exact ⟨_, .binary infixed above left (.ofOperand _ phrase)⟩
  | @binary as bs first last inner _ infixedInner aboveInner phrase phraseLast ih _ =>
    cases tight
    have level : op.rightLevel = op.level + 1 := Operator.rightLevel_of_binary infixed
    by_cases tighter : op.rightLevel ≤ inner.level
    · exact ⟨_, .binary infixed above left (.binary infixedInner tighter phrase phraseLast)⟩
    · rw [level] at tighter
      obtain ⟨e', longer⟩ := ih rfl (Nat.le_of_lt_succ (Nat.not_le.mp tighter))
      have whole := Phrase.binary infixedInner aboveInner longer phraseLast
      rw [List.append_assoc] at whole
      exact ⟨_, whole⟩
  | _ => cases tight

theorem whole_infix_behind (infixed : op.arity = 2) (right : Phrase (.chain op.rightLevel) rs r)
    (phrase : Phrase rank ls e) (tight : rank = .whole) : ∃ e', Phrase .whole (ls ++ .operator op :: rs) e' := by
  induction phrase with
  | ofChain phrase =>
    obtain ⟨e', longer⟩ := infix_behind infixed right phrase rfl op.lowest_le_level
    exact ⟨e', .ofChain longer⟩
  | choose phrase phraseYes _ unindexed _ _ ih =>
    obtain ⟨e', longer⟩ := ih rfl
    have whole := Phrase.choose phrase phraseYes longer unindexed
    exact ⟨_, by simpa using whole⟩
  | _ => cases tight

/-- Branches behind a whole expression belong to the last condition in it. -/
theorem branches_behind {ys ns : List Lexeme} {yes no : Expr} (phraseYes : Phrase .whole ys yes)
    (phraseNo : Phrase .whole ns no) (phrase : Phrase rank ls e) (tight : rank = .whole) :
    ∃ e', Phrase .whole (ls ++ .question false :: (ys ++ .colon :: ns)) e' := by
  induction phrase with
  | ofChain phrase => exact ⟨_, .choose phrase phraseYes phraseNo fun glued => absurd glued Bool.false_ne_true⟩
  | choose phrase phraseThen _ unindexed _ _ ih =>
    obtain ⟨e', longer⟩ := ih rfl
    have whole := Phrase.choose phrase phraseThen longer unindexed
    exact ⟨_, by simpa using whole⟩
  | _ => cases tight

end Phrase

namespace Operation

variable {inner op : Operator} {ls rs : List Lexeme} {e r : Expr}

/-- What goes on with a member goes to the last operand of any operator but the assertion. -/
theorem suffix_behind {tail : List Lexeme}
    (suffix : ∀ {ls e}, Phrase .member ls e → ∃ e', Phrase .member (ls ++ tail) e')
    (operation : Operation inner ls e) (other : inner ≠ .assertPresent) :
    ∃ e', Operation inner (ls ++ tail) e' := by
  cases operation with
  | assert => exact absurd rfl other
  | not phrase =>
    obtain ⟨e', longer⟩ := phrase.suffix_behind suffix nofun
    exact ⟨_, .not longer⟩
  | negate phrase =>
    obtain ⟨e', longer⟩ := phrase.suffix_behind suffix nofun
    exact ⟨_, .negate longer⟩
  | binary infixed phrase right =>
    obtain ⟨e', longer⟩ := right.suffix_behind suffix nofun
    have whole := Operation.binary infixed phrase longer
    exact ⟨_, by simpa using whole⟩
  | choose phrase yes no =>
    obtain ⟨e', longer⟩ := no.suffix_behind suffix nofun
    have whole := Operation.choose phrase yes longer
    exact ⟨_, by simpa using whole⟩

/-- A sign goes to the first operand of an infix operator or of a conditional. -/
theorem sign_ahead {sign : Lexeme} (signs : sign = .bang ∨ sign = .operator .minus)
    (operation : Operation inner ls e) (loose : inner.level < Operator.negate.level) :
    ∃ e', Operation inner (sign :: ls) e' := by
  cases operation with
  | assert => exact absurd loose (by decide)
  | not => exact absurd loose (by decide)
  | negate => exact absurd loose (by decide)
  | binary infixed left right =>
    obtain ⟨e', longer⟩ := left.sign_ahead signs ⟨nofun, nofun⟩
    exact ⟨_, .binary infixed longer right⟩
  | choose condition yes no =>
    obtain ⟨e', longer⟩ := condition.sign_ahead signs ⟨nofun, nofun⟩
    exact ⟨_, .choose longer yes no⟩

/-- An operator behind a looser one becomes part of the right operand of that. -/
theorem infix_behind (infixed : op.arity = 2) (operation : Operation inner ls e) (loose : inner.level < op.level)
    (right : Phrase (.chain op.rightLevel) rs r) : ∃ e', Operation inner (ls ++ .operator op :: rs) e' := by
  have below : op.level < Operator.negate.level := Operator.level_lt_sign infixed
  cases operation with
  | assert => exact absurd (Nat.lt_trans loose below) (by decide)
  | not => exact absurd (Nat.lt_trans loose below) (by decide)
  | negate => exact absurd (Nat.lt_trans loose below) (by decide)
  | binary infixedInner left last =>
    have above : inner.rightLevel ≤ op.level := by
      rw [Operator.rightLevel_of_binary infixedInner]
      exact loose
    obtain ⟨e', longer⟩ := Phrase.infix_behind infixed right last rfl above
    have whole := Operation.binary infixedInner left longer
    exact ⟨_, by simpa using whole⟩
  | choose condition yes no =>
    obtain ⟨e', longer⟩ := Phrase.whole_infix_behind infixed right no rfl
    have whole := Operation.choose condition yes longer
    exact ⟨_, by simpa using whole⟩

/-- An operator in front of one that is not tighter becomes part of the left operand of that. -/
theorem infix_ahead (infixed : op.arity = 2) (operation : Operation inner ls e) (loose : inner.level ≤ op.level)
    (left : Phrase (.chain op.level) rs r) :
    ∃ e', Operation inner (rs ++ .operator op :: ls) e' ∧ e' ≠ .join op r e := by
  have below : op.level < Operator.negate.level := Operator.level_lt_sign infixed
  cases operation with
  | assert => exact absurd (Nat.lt_of_le_of_lt loose below) (by decide)
  | not => exact absurd (Nat.lt_of_le_of_lt loose below) (by decide)
  | negate => exact absurd (Nat.lt_of_le_of_lt loose below) (by decide)
  | @binary as bs first last _ infixedInner phrase phraseLast =>
    obtain ⟨e', longer⟩ := Phrase.infix_ahead infixed left phrase rfl loose
    have whole := Operation.binary infixedInner longer phraseLast
    rw [List.append_assoc] at whole
    refine ⟨_, whole, ?_⟩
    by_cases apart : inner = op
    · subst apart
      exact fun same => Expr.ne_join_right inner first last (Expr.right_of_join same)
    · exact whole.ne_of_operator (Expr.operator?_join _ _ _) apart
  | choose condition yes no =>
    obtain ⟨e', longer⟩ := Phrase.infix_ahead infixed left condition rfl op.lowest_le_level
    have whole := Operation.choose longer yes no
    rw [List.append_assoc] at whole
    refine ⟨_, whole, whole.ne_of_operator (Expr.operator?_join _ _ _) ?_⟩
    rintro rfl
    cases infixed

/-- Branches behind a conditional become part of its last branch. -/
theorem branches_behind (operation : Operation .choose ls e) {ys ns : List Lexeme} {yes no : Expr}
    (phraseYes : Phrase .whole ys yes) (phraseNo : Phrase .whole ns no) :
    ∃ e', Operation .choose (ls ++ .question false :: (ys ++ .colon :: ns)) e' ∧
      e' ≠ .choose .synthetic e yes no := by
  generalize same : Operator.choose = op at operation
  cases operation with
  | @choose cs _ _ condition yes' no' phrase phraseThen phraseElse =>
    obtain ⟨e', longer⟩ := Phrase.branches_behind phraseYes phraseNo phraseElse rfl
    have whole := Operation.choose phrase phraseThen longer
    refine ⟨_, by simpa using whole, ?_⟩
    intro equal
    exact Expr.ne_condition _ _ _ _ (Expr.choose.inj equal).2.1
  | binary infixed => subst same; cases infixed
  | _ => cases same

end Operation

end LazyExpr
