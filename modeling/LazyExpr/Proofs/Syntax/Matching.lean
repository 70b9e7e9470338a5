import LazyExpr.Proofs.Syntax.Accessing
import LazyExpr.Proofs.Syntax.Spacing

namespace LazyExpr

open Pattern (Leaves)

/-- A question mark is a token of its own unless it is part of another, and then nothing starts behind it. -/
theorem Lexeme.split?_question (rest : List Char) :
    (∃ glued taken behind, split? ('?' :: rest) = some (.question glued, taken, behind)) ∨
      Idle rest ∧ unblanked rest = rest := by
  have idle (c : Char) (rest : List Char) (head : c = '?' ∨ c = '.') : Idle (c :: rest) := by
    intro lexeme taken behind split
    have mark : splitMark? (c :: rest) = some (lexeme, taken, behind) := by
      rcases head with rfl | rfl <;> exact split
    unfold splitMark? at mark
    split at mark <;> cases mark
    all_goals first | rfl | (rename_i same; cases same; simp at head)
  rcases rest with _ | ⟨c, rest⟩
  · exact .inl ⟨_, _, _, rfl⟩
  · by_cases head : c = '?' ∨ c = '.'
    · refine .inr ⟨idle c rest head, ?_⟩
      rcases head with rfl | rfl <;> rfl
    · refine .inl ?_
      by_cases bracket : c = '['
      · subst bracket
        exact ⟨true, _, _, rfl⟩
      · have letters : Letters (.question false) ['?'] := .mark trivial
        refine ⟨false, _, _, split?_of_letters letters fun d first grows => ?_⟩
        cases first
        simp only [Lexeme.grows, Bool.or_eq_true, decide_eq_true_eq] at grows
        rcases grows with (again | point) | opens
        · exact head (.inl again)
        · exact head (.inr point)
        · exact bracket opens

namespace Grammar

variable {self : Reader Expr} {last cs : List Char} {tokens : List Token} {bound : Nat}

/-- An infix operator and its right operand. -/
def pair (self : Reader Expr) : Step := fun tokens =>
  (Step.token (· matches .operator _) tokens).bind (Reader.left (operand self))

theorem chain_left (fuel : Nat) (tokens : List Token) :
    (chain self fuel tokens).2 = Step.loop (pair self) fuel tokens := by
  fun_induction chain self fuel tokens with
  | case1 fuel op s rest e after read more left split ih =>
    have step : pair self (⟨.operator op, s⟩ :: rest) = some after := congrArg (Option.map Prod.snd) read
    rw [Step.loop_next step, ← ih, split]
  | case2 fuel op s rest read =>
    have step : pair self (⟨.operator op, s⟩ :: rest) = none := congrArg (Option.map Prod.snd) read
    rw [Step.loop_stop step]
  | case3 fuel tokens stops =>
    cases fuel with
    | zero => rfl
    | succ fuel =>
      have step : pair self tokens = none := by
        rcases tokens with _ | ⟨⟨lexeme, s⟩, rest⟩
        · rfl
        · cases lexeme with
          | operator op => exact (stops fuel op s rest rfl rfl).elim
          | _ => rfl
      rw [Step.loop_stop step]

theorem binary_left (tokens : List Token) : Reader.left (binary self) tokens =
    (Reader.left (operand self) tokens).map fun left => Step.loop (pair self) left.length left := by
  simp only [Reader.left, binary]
  rcases operand self tokens with _ | ⟨first, rest⟩
  · rfl
  · exact congrArg some (chain_left rest.length rest)

/-- The branches of a conditional, without its question mark. -/
def branched (self : Reader Expr) : Step := fun tokens =>
  (self.left tokens).bind fun left => (Step.token (· = .colon) left).bind self.left

/-- A question mark and the branches behind it. -/
def chosen (self : Reader Expr) : Step := fun tokens =>
  (Step.token (· matches .question _) tokens).bind (branched self)

theorem branches_left (tokens : List Token) : Reader.left (branches self) tokens = branched self tokens := by
  simp only [Reader.left, branches, branched]
  rcases self tokens with _ | ⟨yes, _ | ⟨⟨lexeme, s⟩, rest⟩⟩
  · rfl
  · rfl
  · cases lexeme with
    | colon =>
      have taken : Step.token (· = .colon) (⟨.colon, s⟩ :: rest) = some rest := rfl
      simp only [Option.map_some, Option.bind_some, taken, Reader.left]
      rcases self rest with _ | ⟨no, rest⟩ <;> rfl
    | _ => rfl

theorem level_left (stop : Nat) (tokens : List Token) : Reader.left (level stop self) tokens =
    (Reader.left (binary self) tokens).map fun left => (chosen self left).getD left := by
  simp only [Reader.left, level]
  rcases binary self tokens with _ | ⟨condition, _ | ⟨⟨lexeme, s⟩, rest⟩⟩
  · rfl
  · rfl
  · cases lexeme with
    | question glued =>
      have taken : chosen self (⟨.question glued, s⟩ :: rest) = Reader.left (branches self) rest :=
        (branches_left rest).symm
      simp only [Option.map_some, taken, Reader.left]
      rcases branches self rest with _ | ⟨⟨yes, no⟩, after⟩ <;> rfl
    | _ => rfl

theorem question_follows {s : Span} {glued : Bool} (presents : Presents last cs (⟨.question glued, s⟩ :: tokens)) :
    Follows last (.text "?") 30 cs (⟨.question glued, s⟩ :: tokens) (some tokens) := by
  obtain ⟨taken, rest, whole, letters, ends, behind, shorter⟩ := presents.split
  cases letters
  have leaves : (Pattern.text "?").Leaves 1 (unblanked cs) (some rest) := by
    rw [whole]
    exact Leaves.text
  exact ⟨rest, leaves.mono (by omega), behind, shorter, Nat.lt_succ_self _⟩

section Agreement

variable (agrees : self.Agrees last bound) (presents : Presents last cs tokens)

include agrees presents

theorem branched_follows (few : tokens.length < bound) :
    Follows last (.spaced [.rule .expr, .text ":", .rule .expr]) 110 cs tokens (branched self tokens) := by
  have second (mid : List Char) (left : List Token) (behind : Behind last cs tokens mid left) :
      Follows last (.spaced [.text ":", .rule .expr]) 40 mid left
        ((Step.token (· = .colon) left).bind self.left) := by
    have no (mid' : List Char) (left' : List Token) (behind' : Behind last mid left mid' left') :
        Follows last (.spaced [.rule .expr]) 100 mid' left' (self.left left') :=
      agrees mid' left' behind'.presents (behind'.fewer.trans (behind.fewer.trans few))
    exact (Follows.spaced (.token colon_recognizes behind.presents) no).mono (by omega)
  exact (Follows.spaced (agrees cs tokens presents few) second).mono (by omega)

variable (few : tokens.length ≤ bound)

include few

theorem pair_follows :
    Follows last (.spaced [.rule .binaryOperator, .rule .unary]) 40 cs tokens (pair self tokens) := by
  have right (mid : List Char) (left : List Token) (behind : Behind last cs tokens mid left) :
      Follows last (.spaced [.rule .unary]) 75 mid left (Reader.left (operand self) left) :=
    operand_follows agrees behind.presents (behind.fewer.le.trans few)
  exact (Follows.spaced (.token binaryOperator_recognizes presents) right).mono (by omega)

theorem binary_follows : Follows last (.rule .binary) 80 cs tokens (Reader.left (binary self) tokens) := by
  have body : Follows last Rule.binary.body _ cs tokens _ :=
    .rounds (operand_follows agrees presents few) few fun cs tokens presents few =>
      pair_follows agrees presents few.le
  rw [binary_left]
  exact (Follows.rule body).mono (by omega)

theorem chosen_follows :
    Follows last (.spaced [.text "?", .rule .expr, .text ":", .rule .expr]) 40 cs tokens (chosen self tokens) := by
  by_cases question : ∃ glued s rest, tokens = ⟨.question glued, s⟩ :: rest
  · obtain ⟨glued, s, rest, rfl⟩ := question
    have inner (mid : List Char) (left : List Token)
        (behind : Behind last cs (⟨.question glued, s⟩ :: rest) mid left) :=
      branched_follows agrees behind.presents (behind.fewer.trans_le few)
    exact (Follows.spaced (question_follows presents) inner).mono (by omega)
  · have none : chosen self tokens = none := by
      rcases tokens with _ | ⟨⟨lexeme, s⟩, rest⟩
      · rfl
      · cases lexeme with
        | question glued => exact absurd ⟨glued, s, rest, rfl⟩ question
        | _ => rfl
    rw [none]
    rcases Leaves.text_cases "?" (unblanked cs) with ⟨rest, whole, mark⟩ | failed
    · rcases Lexeme.split?_question rest with ⟨glued, taken, behind, split⟩ | ⟨idle, solid⟩
      · have found : Lexeme.split? (unblanked cs) = some (.question glued, taken, behind) := by rwa [whole]
        obtain ⟨s, left, same, _⟩ := presents.head found
        exact absurd ⟨glued, s, left, same⟩ question
      · -- The rule takes the question mark of `??` or `?.`, which is no token of its own, and fails behind it.
        rw [← solid] at idle
        have one : "?".toList.length = 1 := rfl
        have shorter := length_unblanked_le cs
        rw [whole, List.length_append, one] at shorter
        exact (mark.spaced idle.expr_none.spaced_none).mono (by omega)
    · exact failed.spaced_none.mono (by omega)

theorem level_follows (stop : Nat) :
    Follows last (.rule .expr) 100 cs tokens (Reader.left (level stop self) tokens) := by
  have body : Follows last Rule.expr.body _ cs tokens _ :=
    .spaced_optional (binary_follows agrees presents few) fun mid left behind =>
      chosen_follows agrees behind.presents (behind.fewer.le.trans few)
  rw [level_left]
  exact (Follows.rule body).mono (by omega)

end Agreement

theorem expr_agrees (stop depth : Nat) (last : List Char) : Reader.Agrees (expr stop depth) last depth := by
  induction depth with
  | zero => exact fun cs tokens _ few => absurd few (Nat.not_lt_zero _)
  | succ depth ih => exact fun cs tokens presents few => level_follows ih presents (Nat.le_of_lt_succ few) stop

theorem whole?_isSome_iff (stop : Nat) (tokens : List Token) :
    (whole? stop tokens).isSome ↔ Reader.left (expr stop (tokens.length + 1)) tokens = some [] := by
  unfold whole? Reader.left
  rcases expr stop (tokens.length + 1) tokens with _ | ⟨e, _ | ⟨t, rest⟩⟩
  · exact iff_of_false Bool.false_ne_true fun same => by cases same
  · exact iff_of_true rfl rfl
  · exact iff_of_false Bool.false_ne_true fun same => by cases same

end Grammar

theorem unblanked_of_solid {c : Char} (solid : ¬ isBlank c) (cs : List Char) : unblanked (c :: cs) = c :: cs :=
  List.dropWhile_cons_of_neg solid

theorem unblanked_of_blank {c : Char} (blank : isBlank c) (cs : List Char) : unblanked (c :: cs) = unblanked cs :=
  List.dropWhile_cons_of_pos blank

theorem Lexes.of_unblanked {cs : List Char} {ls : List Lexeme} (lexes : Lexes (unblanked cs) ls) : Lexes cs ls := by
  induction cs with
  | nil => exact lexes
  | cons c cs ih =>
    by_cases blank : isBlank c
    · rw [unblanked_of_blank blank] at lexes
      exact .blank blank (ih lexes)
    · rwa [unblanked_of_solid blank] at lexes

namespace Presents

variable {last cs : List Char} {tokens : List Token}

/-- The tokens of a text that is made of tokens altogether are those that it presents. -/
theorem of_scan? {fuel here : Nat} (scan : Token.scan? fuel here cs = some tokens) : Presents [] cs tokens := by
  fun_induction Token.scan? fuel here cs generalizing tokens with
  | case1 =>
    cases scan
    exact .stop rfl rfl
  | case2 => cases scan
  | case3 fuel here c rest blank ih => exact (ih scan).congr (unblanked_of_blank blank rest)
  | case4 => cases scan
  | case5 fuel here c cs solid lexeme taken rest split stop =>
    rename_i ih
    obtain ⟨more, scanned, same⟩ := Option.map_eq_some_iff.mp scan
    cases same
    rw [← unblanked_of_solid solid] at split
    exact .token split (ih scanned)

theorem lexes (presents : Presents [] cs tokens) : Lexes cs (tokens.map (·.lexeme)) := by
  induction presents with
  | stop nothing _ =>
    refine .of_unblanked ?_
    rw [nothing]
    exact .done
  | token split _ ih => exact .of_unblanked (.token split ih)

/-- At the end of what a text presents there is nothing exactly if it ends there. -/
theorem unblanked_eq_nil_iff (presents : Presents last cs tokens) :
    unblanked cs = [] ↔ tokens = [] ∧ last = [] := by
  cases presents with
  | stop stops _ => rw [stops, and_iff_right rfl]
  | token split _ =>
    refine iff_of_false (fun nothing => ?_) fun both => List.cons_ne_nil _ _ both.1
    rw [nothing] at split
    cases split

end Presents

/-- The rule for a whole text matches exactly if an expression is all that the text presents, and the text ends
there. -/
theorem expression_leaves {source last : List Char} {tokens : List Token} {answer : Option (List Token)}
    (follows : Follows last (.rule .expr) 100 source tokens answer) :
    ∃ left, (Pattern.rule .expression).Leaves (Mismatch.fuelFor source.length) source left ∧
      (left.isSome ↔ last = [] ∧ answer = some []) := by
  have start : (Pattern.text "").Leaves 1 source (some source) := Leaves.text
  have enough : Mismatch.fuelFor source.length = 100 * source.length + 200 := Nat.mul_add 100 _ 2
  cases answer with
  | none =>
    have failed := Leaves.rule .expression (start.spaced (Leaves.spaced_none follows))
    refine ⟨none, failed.mono (by omega), iff_of_false Bool.false_ne_true fun both => ?_⟩
    cases both.2
  | some left =>
    obtain ⟨rest, leaves, behind⟩ := follows
    have ends := behind.presents.unblanked_eq_nil_iff
    by_cases nothing : unblanked rest = []
    · have closed : (Pattern.spaced [.rule .endOfText]).Leaves 2 (unblanked rest) (some []) := by
        rw [nothing]
        exact Leaves.rule .endOfText Leaves.endOfText
      obtain ⟨rfl, rfl⟩ := ends.mp nothing
      have matched := Leaves.rule .expression (start.spaced (leaves.spaced closed))
      exact ⟨_, matched.mono (by omega), iff_of_true rfl ⟨rfl, rfl⟩⟩
    · have closed : (Pattern.spaced [.rule .endOfText]).Leaves 2 (unblanked rest) none :=
        Leaves.rule .endOfText (Leaves.endOfText_none nothing)
      have failed := Leaves.rule .expression (start.spaced (leaves.spaced closed))
      refine ⟨none, failed.mono (by omega), iff_of_false Bool.false_ne_true fun both => nothing ?_⟩
      exact ends.mpr ⟨Option.some.inj both.2, both.1⟩

/-- The rules that work on characters, of which reports of mismatches are made, match a text as a whole exactly if
the readers that work on its tokens do. More fuel than the reports use makes no difference. -/
theorem trace_isSome_iff (source : List Char) {fuel : Nat} (enough : Mismatch.fuelFor source.length ≤ fuel) :
    (Mismatch.trace fuel false (.rule .expression) ⟨0, source⟩ ⟨0, []⟩).1.isSome ↔ (match? source).isSome := by
  have agrees (last : List Char) (tokens : List Token) (presents : Presents last source tokens) :=
    Grammar.expr_agrees (byteSize source) (tokens.length + 1) last source tokens presents (Nat.lt_succ_self _)
  cases scanned : Token.all? source with
  | some tokens =>
    obtain ⟨left, leaves, iff⟩ := expression_leaves (agrees [] tokens (.of_scan? scanned))
    rw [← Option.isSome_map, leaves fuel false 0 ⟨0, []⟩ enough, iff, and_iff_right rfl,
      ← Grammar.whole?_isSome_iff]
    simp only [match?, scanned, Option.isSome_map]
  | none =>
    obtain ⟨last, tokens, presents⟩ := Presents.exists_tokens source
    obtain ⟨left, leaves, iff⟩ := expression_leaves (agrees last tokens presents)
    rw [← Option.isSome_map, leaves fuel false 0 ⟨0, []⟩ enough, iff]
    refine iff_of_false (fun both => ?_) ?_
    · obtain ⟨rfl, _⟩ := both
      obtain ⟨tokens', all, _⟩ := presents.lexes.all?
      rw [scanned] at all
      cases all
    · simp only [match?, scanned]
      exact Bool.false_ne_true

/-- A text is refused with the report of a mismatch exactly if the rules that the report is made of do not match
it. -/
theorem read_mismatch_iff (source : String) :
    (∃ offset report, read source = .error (.mismatch offset report)) ↔
      (Mismatch.trace (Mismatch.fuelFor source.toList.length) false (.rule .expression) ⟨0, source.toList⟩
        ⟨0, []⟩).1 = none := by
  rw [← Option.not_isSome_iff_eq_none, trace_isSome_iff source.toList (Nat.le_refl _)]
  unfold read
  cases matched : match? source.toList with
  | none => exact iff_of_true ⟨_, _, rfl⟩ Bool.false_ne_true
  | some found =>
    obtain ⟨tokens, e⟩ := found
    refine iff_of_false ?_ (not_not_intro rfl)
    rintro ⟨offset, report, refused⟩
    dsimp only at refused
    split at refused
    · rename_i fault found
      obtain ⟨t, _, here⟩ := List.exists_of_findSome?_eq_some found
      cases refused
      exact Token.isSemantic_of_fault here
    · cases refused

end LazyExpr
