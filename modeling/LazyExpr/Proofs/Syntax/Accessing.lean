import LazyExpr.Proofs.Syntax.Alternatives

namespace LazyExpr

open Pattern (Leaves)

theorem Lexeme.split?_equals {cs taken rest : List Char} {lexeme : Lexeme}
    (split : split? ('=' :: cs) = some (lexeme, taken, rest)) : lexeme = .operator .equal := by
  have mark : splitMark? ('=' :: cs) = some (lexeme, taken, rest) := split
  unfold splitMark? at mark
  split at mark <;> cases mark
  all_goals first | rfl | (rename_i same; cases same)

theorem unaryOperator_bang (rest : List Char) :
    (Pattern.rule .unaryOperator).Leaves 3 ('!' :: rest) (some rest) :=
  Leaves.rule .unaryOperator (Leaves.text (s := "!")).either

theorem unaryOperator_minus (rest : List Char) :
    (Pattern.rule .unaryOperator).Leaves 3 ('-' :: rest) (some rest) := by
  have other : ¬ "!".toList <+: '-' :: rest := by
    rintro ⟨_, same⟩
    cases same
  exact Leaves.rule .unaryOperator ((Leaves.text_none other).either_none (Leaves.text (s := "-")))

theorem unaryOperator_equals (rest : List Char) :
    (Pattern.rule .unaryOperator).Leaves 3 ('=' :: rest) none := by
  refine unaryOperator_none ?_ ?_
  all_goals
    rintro ⟨_, same⟩
    cases same

theorem suffixed_equals (rest : List Char) :
    (Pattern.rule .suffixed).Leaves (rest.length + 51) ('=' :: rest) none := by
  have failed : (Pattern.rule .suffixed).Leaves _ ('=' :: rest) none :=
    suffixed_none fun lexeme taken behind split => by
      obtain rfl := @Lexeme.split?_equals rest taken behind lexeme split
      exact List.filter_eq_nil_iff.mp rfl
  exact failed.mono (Nat.le_of_eq (Nat.add_right_comm rest.length 1 50))

namespace Grammar

variable {self : Reader Expr} {last cs : List Char} {tokens : List Token} {bound : Nat}

/-- Null-safe indexing is opened by one token of the grammar of characters, and by two here. -/
theorem safeBracket_follows {s : Span} (presents : Presents last cs (⟨.question true, s⟩ :: tokens)) :
    ∃ s' rest, tokens = ⟨.openBracket, s'⟩ :: rest ∧
      Follows last (.text "?[") 30 cs (⟨.question true, s⟩ :: tokens) (some rest) := by
  obtain ⟨taken, rest, whole, letters, ends, behind, shorter⟩ := presents.split
  cases letters
  rcases rest with _ | ⟨c, rest⟩
  · cases ends
  · cases ends
    have bracket : Lexeme.split? (unblanked ('[' :: rest)) = some (.openBracket, ['['], rest) := rfl
    obtain ⟨s', tokens, rfl, inner⟩ := behind.head bracket
    have taken : (Pattern.text "?[").Leaves 1 (unblanked cs) (some rest) := by
      rw [whole]
      exact Leaves.text
    rw [List.length_cons] at shorter
    refine ⟨s', tokens, rfl, rest, taken.mono (by omega), inner, by omega, ?_⟩
    simp only [List.length_cons]
    omega

theorem field_follows (safe : Bool) (presents : Presents last cs tokens) :
    Follows last (.rule (if safe then .safeField else .field)) 40 cs tokens
      ((Step.token (· = if safe then .safeDot else .dot) tokens).bind (Step.token (· matches .word _))) := by
  have name (mid : List Char) (left : List Token) (behind : Behind last cs tokens mid left) :
      Follows last (.spaced [.rule .identifier]) 30 mid left (Step.token (· matches .word _) left) :=
    .token identifier_recognizes behind.presents
  cases safe with
  | false =>
    have body : Follows last Rule.field.body _ cs tokens _ := .spaced (.token dot_recognizes presents) name
    exact (Follows.rule body).mono (by omega)
  | true =>
    have body : Follows last Rule.safeField.body _ cs tokens _ := .spaced (.token safeDot_recognizes presents) name
    exact (Follows.rule body).mono (by omega)

theorem index?_left (e : Expr) (safe : Bool) (tokens : List Token) :
    Reader.left (index? self e safe) tokens = closed self .closeBracket tokens := by
  simp only [Reader.left, index?, closed]
  rcases self tokens with _ | ⟨key, _ | ⟨⟨lexeme, s⟩, rest⟩⟩
  · rfl
  · rfl
  · cases lexeme <;> rfl

/-- An access behind an operand. Which operand it is does not matter for the tokens that are left. -/
def access (self : Reader Expr) : Step := Reader.left (suffix? self (.null .synthetic))

theorem suffix?_left (e : Expr) (tokens : List Token) :
    Reader.left (suffix? self e) tokens = access self tokens := by
  rw [access]
  unfold Reader.left suffix?
  split
  · rfl
  · rfl
  · exact (index?_left e false _).trans (index?_left _ false _).symm
  · exact (index?_left e true _).trans (index?_left _ true _).symm
  · rfl
  · rfl

theorem field_left (safe : Bool) (s : Span) (rest : List Token) :
    access self (⟨if safe then .safeDot else .dot, s⟩ :: rest) = Step.token (· matches .word _) rest := by
  rcases rest with _ | ⟨⟨lexeme, s⟩, rest⟩
  · cases safe <;> rfl
  · cases safe <;> cases lexeme <;> rfl

theorem suffixes_left (fuel : Nat) (e : Expr) (tokens : List Token) :
    (suffixes self fuel e tokens).2 = Step.loop (access self) fuel tokens := by
  fun_induction suffixes self fuel e tokens with
  | case1 => rfl
  | case2 fuel e tokens e' rest found ih =>
    have step : access self tokens = some rest := by rw [← suffix?_left e, Reader.left, found, Option.map_some]
    rw [Step.loop_next step, ih]
  | case3 fuel e tokens found =>
    have step : access self tokens = none := by rw [← suffix?_left e, Reader.left, found, Option.map_none]
    rw [Step.loop_stop step]

/-- An operand without signs, with all of its accesses. -/
def member (self : Reader Expr) : Step := fun tokens =>
  (Reader.left (primary self) tokens).map fun left => Step.loop (access self) left.length left

theorem operand_left (tokens : List Token) : Reader.left (operand self) tokens = member self (signs tokens).2 := by
  simp only [Reader.left, operand, member]
  rcases primary self (signs tokens).2 with _ | ⟨e, rest⟩
  · rfl
  · exact congrArg some (suffixes_left rest.length e rest)

section Agreement

variable (agrees : self.Agrees last bound) (presents : Presents last cs tokens) (few : tokens.length ≤ bound)

include agrees presents few

theorem index_follows :
    Follows last (.rule .index) 40 cs tokens
      ((Step.token (· = .openBracket) tokens).bind (closed self .closeBracket)) := by
  have inner (mid : List Char) (left : List Token) (behind : Behind last cs tokens mid left) :=
    closed_follows agrees behind.presents closeBracket_recognizes (behind.fewer.trans_le few)
  have body : Follows last Rule.index.body _ cs tokens _ :=
    .spaced (.token openBracket_recognizes presents) inner
  exact (Follows.rule body).mono (by omega)

theorem safeIndex_follows {s : Span} {rest : List Token} (same : tokens = ⟨.question true, s⟩ :: rest) :
    Follows last (.rule .safeIndex) 40 cs tokens (access self tokens) := by
  subst same
  obtain ⟨s', rest, rfl, opened⟩ := safeBracket_follows presents
  have inner (mid : List Char) (left : List Token) (behind : Behind last cs _ mid left) :=
    closed_follows agrees behind.presents closeBracket_recognizes (behind.fewer.trans_le few)
  have body : Follows last Rule.safeIndex.body _ cs _ _ := .spaced opened inner
  have answer : access self (⟨.question true, s⟩ :: ⟨.openBracket, s'⟩ :: rest) = closed self .closeBracket rest :=
    index?_left _ true rest
  rw [answer]
  exact (Follows.rule body).mono (by omega)

theorem access_follows : Follows last (Choice.patterns accesses) 60 cs tokens (access self tokens) := by
  have nowhere (other : ∀ t ∈ tokens.head?, accesses.filter (·.opens t.lexeme) = []) :
      Follows last (Choice.patterns accesses) 60 cs tokens none :=
    (Follows.no_choice accesses_sound (List.cons_ne_nil _ _) presents other).mono (by decide)
  cases tokens with
  | nil => exact nowhere fun t first => by cases first
  | cons t rest =>
    obtain ⟨lexeme, s⟩ := t
    cases lexeme with
    | dot =>
      have answer : access self (⟨.dot, s⟩ :: rest) = Step.token (· matches .word _) rest :=
        field_left false s rest
      rw [answer]
      exact (Follows.choice accesses_sound presents rfl (.inl rfl) (field_follows false presents)).mono (by decide)
    | safeDot =>
      have answer : access self (⟨.safeDot, s⟩ :: rest) = Step.token (· matches .word _) rest :=
        field_left true s rest
      rw [answer]
      exact (Follows.choice accesses_sound presents rfl (.inl rfl) (field_follows true presents)).mono (by decide)
    | openBracket =>
      have answer : access self (⟨.openBracket, s⟩ :: rest) = closed self .closeBracket rest :=
        index?_left _ false rest
      have follows := index_follows agrees presents few
      rw [answer]
      exact (Follows.choice accesses_sound presents rfl (.inl rfl) follows).mono (by decide)
    | question glued =>
      cases glued with
      | true =>
        have follows := safeIndex_follows agrees presents few rfl
        exact (Follows.choice accesses_sound presents rfl (.inl rfl) follows).mono (by decide)
      | false =>
        refine nowhere fun t first => ?_
        cases first
        rfl
    | bang =>
      have follows := Follows.token assertPresent_recognizes presents
      exact (Follows.choice accesses_sound presents rfl (.inl rfl) follows).mono (by decide)
    | _ =>
      refine nowhere fun t first => ?_
      cases first
      rfl

theorem suffixed_follows : Follows last (.rule .suffixed) 70 cs tokens (member self tokens) := by
  have body : Follows last Rule.suffixed.body _ cs tokens (member self tokens) :=
    .rounds (primary_follows agrees presents few) few fun cs tokens presents few =>
      access_follows agrees presents few.le
  exact (Follows.rule body).mono (by omega)

/-- Where no sign stands none is taken, but for the exclamation mark of an inequality, and behind that no member
starts. -/
theorem unsigned_follow (plain : ∀ s rest, tokens = ⟨.bang, s⟩ :: rest → False)
    (unsigned : ∀ s rest, tokens = ⟨.operator .minus, s⟩ :: rest → False) :
    ∃ rest, (Pattern.rule .unaryOperator).Rounds (cs.length + 5) cs rest ∧ rest.length ≤ cs.length ∧
      Follows last (.rule .suffixed) 70 rest tokens (member self tokens) := by
  have minus : ¬ "-".toList <+: unblanked cs := by
    rintro ⟨rest, whole⟩
    have found : Lexeme.split? (unblanked cs) = some (.operator .minus, ['-'], rest) := by
      rw [← whole]
      rfl
    obtain ⟨s, behind, same, _⟩ := presents.head found
    exact unsigned s behind same
  by_cases bang : "!".toList <+: unblanked cs
  · obtain ⟨rest, whole⟩ := bang
    obtain ⟨taken, behind, alone | different⟩ := Lexeme.split?_bang rest
    · have found : Lexeme.split? (unblanked cs) = some (.bang, taken, behind) := by rwa [← whole]
      obtain ⟨s, behind, same, _⟩ := presents.head found
      exact absurd same (plain s behind)
    · have found : Lexeme.split? (unblanked cs) = some (.operator .different, taken, behind) := by rwa [← whole]
      obtain ⟨s, tokens, rfl, _⟩ := presents.head found
      obtain ⟨same, letters, _⟩ := Lexeme.split?_eq_some_iff.mp different
      cases letters
      obtain rfl : rest = '=' :: behind := (List.cons.inj same).2
      have sign : (Pattern.rule .unaryOperator).Leaves 3 (unblanked cs) (some ('=' :: behind)) := by
        rw [← whole]
        exact unaryOperator_bang _
      have none : (Pattern.rule .unaryOperator).Leaves 3 (unblanked ('=' :: behind)) none :=
        unaryOperator_equals behind
      -- The rule for signs has taken the exclamation mark, so the member fails at the equals sign.
      have bound := length_unblanked_le cs
      rw [← whole, List.length_append] at bound
      refine ⟨'=' :: behind, (Pattern.Rounds.next sign (.none none)).mono (by omega), by omega, ?_⟩
      refine (suffixed_equals behind).mono ?_
      rw [List.length_cons]
      omega
  · exact ⟨cs, (Pattern.Rounds.none (unaryOperator_none bang minus)).mono (by omega), Nat.le_refl _,
      suffixed_follows agrees presents few⟩

/-- All signs are taken, and behind them a member is found or not. -/
theorem signs_follow : ∃ rest, (Pattern.rule .unaryOperator).Rounds (cs.length + 5) cs rest ∧
    rest.length ≤ cs.length ∧
      Follows last (.rule .suffixed) 70 rest (signs tokens).2 (member self (signs tokens).2) := by
  fun_induction signs tokens generalizing cs with
  | case1 s behind more left split ih =>
    obtain ⟨taken, mid, whole, letters, ends, presents', shorter⟩ := presents.split
    cases letters
    have sign : (Pattern.rule .unaryOperator).Leaves 3 (unblanked cs) (some mid) := by
      rw [whole]
      exact unaryOperator_bang mid
    obtain ⟨rest, rounds, le, follows⟩ := ih presents' (Nat.le_of_lt few)
    rw [split] at follows
    exact ⟨rest, (Pattern.Rounds.next sign rounds).mono (by omega), by omega, follows⟩
  | case2 s behind more left split ih =>
    obtain ⟨taken, mid, whole, letters, ends, presents', shorter⟩ := presents.split
    cases letters
    have sign : (Pattern.rule .unaryOperator).Leaves 3 (unblanked cs) (some mid) := by
      rw [whole]
      exact unaryOperator_minus mid
    obtain ⟨rest, rounds, le, follows⟩ := ih presents' (Nat.le_of_lt few)
    rw [split] at follows
    exact ⟨rest, (Pattern.Rounds.next sign rounds).mono (by omega), by omega, follows⟩
  | case3 tokens plain unsigned => exact unsigned_follow agrees presents few plain unsigned

theorem operand_follows : Follows last (.rule .unary) 75 cs tokens (Reader.left (operand self) tokens) := by
  obtain ⟨mid, rounds, le, follows⟩ := signs_follow agrees presents few
  obtain ⟨mid', signs, same, _⟩ := rounds.whole
  have fewer := (signs_suffix tokens).length_le
  rw [operand_left]
  cases found : member self (Grammar.signs tokens).2 with
  | none =>
    rw [found, Follows, ← same] at follows
    exact (Leaves.rule .unary (signs.spaced follows)).mono (by omega)
  | some left =>
    rw [found] at follows
    obtain ⟨rest, leaves, behind⟩ := follows
    rw [← same] at leaves
    refine ⟨rest, (Leaves.rule .unary (signs.spaced leaves)).mono (by omega), behind.presents, ?_, ?_⟩
    · exact behind.shorter.trans_le le
    · exact behind.fewer.trans_le fewer

end Agreement

end Grammar

end LazyExpr
