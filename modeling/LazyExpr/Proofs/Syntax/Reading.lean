import LazyExpr.Proofs.Syntax.Operands

namespace LazyExpr

open Lexeme (Next closes endsChain)

namespace Phrase

open Grammar

variable {self : Reader Expr} {n : Nat} {ls rest : List Lexeme} {e : Expr}

/-- A chain of operators laid out flat: the operand it starts with, and each operator with the operand
behind it, in lexemes and as a tree. -/
structure Spine where
  first : List Lexeme × Expr
  pairs : List (Operator × List Lexeme × Expr)

namespace Spine

/-- The lexemes of the operators and operands behind the first one. -/
def tail (pairs : List (Operator × List Lexeme × Expr)) : List Lexeme :=
  pairs.flatMap fun pair => .operator pair.1 :: pair.2.1

theorem length_le_tail (pairs : List (Operator × List Lexeme × Expr)) : pairs.length ≤ (tail pairs).length := by
  induction pairs with
  | nil => exact Nat.le_refl _
  | cons pair pairs ih =>
    simp only [tail, List.flatMap_cons, List.length_append, List.length_cons] at ih ⊢
    omega

def lexemes (spine : Spine) : List Lexeme := spine.first.1 ++ tail spine.pairs

/-- The chain as it is grouped. -/
def operands (spine : Spine) : List (Operator × Expr) := spine.pairs.map fun pair => (pair.1, pair.2.2)

/-- Every operand is one by the rules, and the chain is that of an ordered tree, which is built as `e`. -/
structure Builds (spine : Spine) (least : Level) (e : Expr) : Prop where
  first : Phrase .operand spine.first.1 spine.first.2
  pairs : ∀ pair ∈ spine.pairs, Phrase .operand pair.2.1 pair.2.2
  tree : ∃ t : Grouping Expr, t.first = spine.first.2 ∧ t.pairs = spine.operands ∧ t.Ordered ∧ t.AtLeast least ∧
    t.build Expr.join = e

/-- Two chains with an operator between them. -/
def joined (op : Operator) (left right : Spine) : Spine :=
  ⟨left.first, left.pairs ++ (op, right.first) :: right.pairs⟩

theorem lexemes_joined (op : Operator) (left right : Spine) :
    (joined op left right).lexemes = left.lexemes ++ .operator op :: right.lexemes := by
  simp [lexemes, joined, tail]

theorem Builds.joined {op : Operator} {left right : Spine} {l r : Expr} {least : Level} (infixed : op.arity = 2)
    (above : least ≤ op.level) (buildsLeft : left.Builds op.level l) (buildsRight : right.Builds op.rightLevel r) :
    (Spine.joined op left right).Builds least (.join op l r) where
  first := buildsLeft.first
  pairs := by
    intro pair member
    rcases List.mem_append.mp member with member | member
    · exact buildsLeft.pairs pair member
    · rcases List.mem_cons.mp member with rfl | member
      · exact buildsRight.first
      · exact buildsRight.pairs pair member
  tree := by
    obtain ⟨t, first, pairs, ordered, bound, rfl⟩ := buildsLeft.tree
    obtain ⟨u, first', pairs', ordered', bound', rfl⟩ := buildsRight.tree
    rw [← Operator.leftLevel_of_binary infixed] at bound
    refine ⟨.joint op t u, first, ?_, ⟨bound, bound', ordered, ordered'⟩, above, rfl⟩
    simp [Grouping.pairs, Spine.joined, operands, pairs, pairs', first']

end Spine

/-- A phrase of operators is the tree of some chain. -/
theorem spine {rank : Rank} {least : Level} (phrase : Phrase rank ls e) (tight : rank = .chain least) :
    ∃ spine : Spine, spine.lexemes = ls ∧ spine.Builds least e := by
  induction phrase generalizing least with
  | @ofOperand ls e _ phrase =>
    exact ⟨⟨(ls, e), []⟩, List.append_nil ls, phrase, nofun, .operand e, rfl, rfl, trivial, trivial, rfl⟩
  | @binary ls rs left right op _ infixed above _ _ ihLeft ihRight =>
    cases tight
    obtain ⟨leftSpine, rfl, buildsLeft⟩ := ihLeft rfl
    obtain ⟨rightSpine, rfl, buildsRight⟩ := ihRight rfl
    exact ⟨.joined op leftSpine rightSpine, Spine.lexemes_joined op leftSpine rightSpine,
      buildsLeft.joined infixed above buildsRight⟩
  | _ => cases tight

/-- Behind an operand of a chain stands the next operator, or what ends the chain. -/
theorem next_operator (pairs : List (Operator × List Lexeme × Expr)) (stops : Stops self rest) (e : Expr) :
    suffix? self e (bare (Spine.tail pairs ++ rest)) = none := by
  rcases pairs with _ | ⟨pair, pairs⟩
  · exact stops.suffix e
  · rfl

theorem chain_reads (covers : self.Covers n) {pairs : List (Operator × List Lexeme × Expr)}
    (phrases : ∀ pair ∈ pairs, Phrase .operand pair.2.1 pair.2.2) (short : (Spine.tail pairs).length ≤ n)
    (stops : Stops self rest) {fuel : Nat} (enough : pairs.length ≤ fuel) :
    chain self fuel (bare (Spine.tail pairs ++ rest)) =
      (pairs.map fun pair => (pair.1, pair.2.2), bare rest) := by
  induction pairs generalizing fuel with
  | nil =>
    rcases rest with _ | ⟨lexeme, rest⟩
    · cases fuel <;> rfl
    cases lexeme with
    | operator op => exact absurd rfl (stops.infixed op)
    | _ => cases fuel <;> rfl
  | cons pair pairs ih =>
    obtain ⟨phrase, phrases⟩ := List.forall_mem_cons.mp phrases
    rcases fuel with _ | fuel
    · cases enough
    have split : Spine.tail (pair :: pairs) = .operator pair.1 :: (pair.2.1 ++ Spine.tail pairs) := by
      simp [Spine.tail]
    rw [split, List.length_cons, List.length_append] at short
    have first := operand_reads covers phrase rfl (by omega) (next_operator pairs stops)
    have later := ih phrases (by omega) (Nat.le_of_succ_le_succ enough)
    rw [split]
    simp only [List.cons_append, List.append_assoc, bare_cons, chain, first, later, List.map_cons]

theorem binary_reads (covers : self.Covers n) (phrase : Phrase (.chain .lowest) ls e) (short : ls.length ≤ n)
    (stops : Stops self rest) : Grammar.binary self (bare (ls ++ rest)) = some (e, bare rest) := by
  obtain ⟨spine, rfl, builds⟩ := phrase.spine rfl
  rw [Spine.lexemes, List.length_append] at short
  have first := operand_reads covers builds.first rfl (by omega) (next_operator spine.pairs stops)
  have enough : spine.pairs.length ≤ (bare (Spine.tail spine.pairs ++ rest)).length := by
    have counted := Spine.length_le_tail spine.pairs
    simp only [bare, List.length_map, List.length_append]
    omega
  have later : chain self _ (bare (Spine.tail spine.pairs ++ rest)) = (spine.operands, bare rest) :=
    chain_reads covers builds.pairs (by omega) stops enough
  have grouped : group Expr.join spine.first.2 spine.operands = e := by
    obtain ⟨t, sameFirst, same, ordered, _, built⟩ := builds.tree
    rw [← sameFirst, ← same, ordered.group_eq, built]
  rw [Spine.lexemes, List.append_assoc]
  simp only [Grammar.binary, first, later, grouped]

theorem level_reads (covers : self.Covers n) (declines : ∀ rest, self (bare (.closeBracket :: rest)) = none)
    {rank : Rank} (phrase : Phrase rank ls e) (tight : rank = .whole) (short : ls.length ≤ n)
    (next : Next closes rest) : level 0 self (bare (ls ++ rest)) = some (e, bare rest) := by
  cases phrase with
  | ofChain phrase =>
    have read := binary_reads covers phrase short (stops_of_next next.endsChain)
    simp only [level, read]
    rcases rest with _ | ⟨lexeme, rest⟩
    · rfl
    · have ending := next lexeme rfl
      cases lexeme with
      | question glued => cases ending
      | _ => rfl
  | @choose cs ys ns condition yes no glued phrase phraseYes phraseNo unindexed =>
    simp only [List.length_append, List.length_cons] at short
    have colon : Next closes (.colon :: (ns ++ rest)) := by
      rintro _ ⟨⟩
      rfl
    have question := question_stops covers declines phraseYes (by omega) unindexed (.colon :: (ns ++ rest))
    have readCondition := binary_reads covers phrase (by omega) question
    have readYes := covers phraseYes (by omega) colon
    have readNo := covers phraseNo (by omega) next
    have behind : nextStart 0 (bare rest) = 0 := by cases rest <;> rfl
    have here : nextStart 0 (bare (cs ++ .question glued :: (ys ++ .colon :: (ns ++ rest)))) = 0 := by
      cases cs <;> rfl
    simp only [List.append_assoc, List.cons_append, level, readCondition, bare_cons, branches, readYes, readNo]
    rw [here, behind]
    rfl
  | _ => cases tight

theorem expr_declines (stop depth : Nat) (rest : List Lexeme) :
    expr stop depth (bare (.closeBracket :: rest)) = none := by
  cases depth <;> rfl

/-- The readers take every phrase by the rules for what it is. -/
theorem expr_covers (depth : Nat) : (expr 0 depth).Covers depth := by
  induction depth with
  | zero => intro ls e rest _ short _; cases short
  | succ depth ih =>
    intro ls e rest phrase short next
    exact level_reads ih (expr_declines 0 depth) phrase rfl (Nat.le_of_lt_succ short) next

theorem whole?_reads (phrase : Phrase .whole ls e) : whole? 0 (bare ls) = some e := by
  have read : expr 0 (ls.length + 1) (bare (ls ++ [])) = some (e, bare []) :=
    expr_covers _ phrase (Nat.lt_succ_self _) nofun
  rw [List.append_nil] at read
  simp only [whole?, bare, List.length_map] at read ⊢
  rw [read]
  rfl

end Phrase

end LazyExpr
