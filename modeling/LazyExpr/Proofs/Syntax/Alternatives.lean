import LazyExpr.Proofs.Syntax.Deriving
import LazyExpr.Proofs.Syntax.Following

namespace LazyExpr

open Pattern (Leaves)

theorem openParen_recognizes : (Pattern.text "(").Recognizes (· = .openParen) :=
  mark_recognizes trivial rfl fun _ _ _ => Bool.false_ne_true

theorem closeParen_recognizes : (Pattern.text ")").Recognizes (· = .closeParen) :=
  mark_recognizes trivial rfl fun _ _ _ => Bool.false_ne_true

theorem openBracket_recognizes : (Pattern.text "[").Recognizes (· = .openBracket) :=
  mark_recognizes trivial rfl fun _ _ _ => Bool.false_ne_true

theorem closeBracket_recognizes : (Pattern.text "]").Recognizes (· = .closeBracket) :=
  mark_recognizes trivial rfl fun _ _ _ => Bool.false_ne_true

theorem comma_recognizes : (Pattern.text ",").Recognizes (· = .comma) :=
  mark_recognizes trivial rfl fun _ _ _ => Bool.false_ne_true

theorem colon_recognizes : (Pattern.text ":").Recognizes (· = .colon) :=
  mark_recognizes trivial rfl fun _ _ _ => Bool.false_ne_true

theorem dot_recognizes : (Pattern.text ".").Recognizes (· = .dot) :=
  mark_recognizes trivial rfl fun _ _ _ => Bool.false_ne_true

theorem safeDot_recognizes : (Pattern.text "?.").Recognizes (· = .safeDot) :=
  mark_recognizes trivial rfl fun _ _ _ => Bool.false_ne_true

/-- The alternatives of an operand without signs and accesses. -/
def primaries : List Choice :=
  [⟨.rule .nullLiteral, fun l => ["null"].any (l = .word ·)⟩,
    ⟨.rule .undefinedLiteral, fun l => ["undefined"].any (l = .word ·)⟩,
    ⟨.rule .boolLiteral, fun l => ["true", "false"].any (l = .word ·)⟩,
    ⟨.rule .number, (· matches .numeral _)⟩,
    ⟨.rule .quotedString, (· matches .quoted _)⟩,
    ⟨.rule .reference, (· matches .ref _ _)⟩,
    ⟨.rule .listLiteral, (· = .openBracket)⟩,
    ⟨.rule .call, (· matches .word _)⟩,
    ⟨.spaced [.text "(", .rule .expr, .text ")"], (· = .openParen)⟩]

/-- The alternatives of an access behind an operand. -/
def accesses : List Choice :=
  [⟨.rule .safeField, (· = .safeDot)⟩,
    ⟨.rule .safeIndex, (· = .question true)⟩,
    ⟨.rule .field, (· = .dot)⟩,
    ⟨.rule .index, (· = .openBracket)⟩,
    ⟨.rule .assertPresent, (· = .bang)⟩]

theorem primaries_sound : ∀ c ∈ primaries, c.Sound := by
  have list : Choice.Sound ⟨.rule .listLiteral, (· = .openBracket)⟩ := fun other =>
    (Leaves.rule .listLiteral (openBracket_recognizes.missed other).spaced_none).mono (by omega)
  have call : Choice.Sound ⟨.rule .call, (· matches .word _)⟩ := fun other =>
    (Leaves.rule .call (identifier_recognizes.missed other).spaced_none).mono (by omega)
  have parens : Choice.Sound ⟨.spaced [.text "(", .rule .expr, .text ")"], (· = .openParen)⟩ := fun other =>
    (openParen_recognizes.missed other).spaced_none.mono (by omega)
  simp only [primaries, List.forall_mem_cons]
  exact ⟨nullLiteral_recognizes.sound, undefinedLiteral_recognizes.sound, boolLiteral_recognizes.sound,
    number_recognizes.sound, quotedString_recognizes.sound, reference_recognizes.sound, list, call, parens,
    List.forall_mem_nil _⟩

theorem accesses_sound : ∀ c ∈ accesses, c.Sound := by
  have safeField : Choice.Sound ⟨.rule .safeField, (· = .safeDot)⟩ := fun other =>
    (Leaves.rule .safeField (safeDot_recognizes.missed other).spaced_none).mono (by omega)
  have safeIndex : Choice.Sound ⟨.rule .safeIndex, (· = .question true)⟩ := by
    intro cs other
    have failed : (Pattern.text "?[").Leaves 1 cs none := by
      refine Leaves.text_none ?_
      rintro ⟨rest, rfl⟩
      exact other _ _ _ rfl rfl
    exact (Leaves.rule .safeIndex failed.spaced_none).mono (by omega)
  have field : Choice.Sound ⟨.rule .field, (· = .dot)⟩ := fun other =>
    (Leaves.rule .field (dot_recognizes.missed other).spaced_none).mono (by omega)
  have index : Choice.Sound ⟨.rule .index, (· = .openBracket)⟩ := fun other =>
    (Leaves.rule .index (openBracket_recognizes.missed other).spaced_none).mono (by omega)
  simp only [accesses, List.forall_mem_cons]
  exact ⟨safeField, safeIndex, field, index, assertPresent_recognizes.sound, List.forall_mem_nil _⟩

/-- Where no operand starts the rule for one fails. -/
theorem suffixed_none {cs : List Char}
    (other : ∀ lexeme taken rest, Lexeme.split? cs = some (lexeme, taken, rest) →
      ∀ c ∈ primaries, ¬ c.opens lexeme) : (Pattern.rule .suffixed).Leaves (cs.length + 50) cs none := by
  have failed := Choice.patterns_none primaries_sound (List.cons_ne_nil _ _) other
  exact (Leaves.rule .suffixed failed.spaced_none).mono (Nat.le_add_right (cs.length + 44) 6)

theorem unaryOperator_none {cs : List Char} (bang : ¬ "!".toList <+: cs) (minus : ¬ "-".toList <+: cs) :
    (Pattern.rule .unaryOperator).Leaves 3 cs none :=
  Leaves.rule .unaryOperator ((Leaves.text_none bang).either_none (Leaves.text_none minus))

/-- Neither an operand nor a sign starts with such a lexeme. -/
def Lexeme.isIdle (lexeme : Lexeme) : Bool :=
  primaries.all (!·.opens lexeme) && lexeme ≠ .bang && lexeme ≠ .operator .different && lexeme ≠ .operator .minus

theorem Lexeme.not_opens_of_isIdle {lexeme : Lexeme} (idle : lexeme.isIdle) :
    ∀ c ∈ primaries, ¬ c.opens lexeme := by
  simp only [isIdle, Bool.and_eq_true, List.all_eq_true, Bool.not_eq_true'] at idle
  intro c listed
  rw [idle.1.1.1 c listed]
  exact Bool.false_ne_true

theorem Lexeme.split?_bang (rest : List Char) :
    ∃ taken behind, split? ('!' :: rest) = some (.bang, taken, behind) ∨
      split? ('!' :: rest) = some (.operator .different, taken, behind) := by
  by_cases ends : Lexeme.bang.Ends rest
  · have letters : Letters .bang ['!'] := .mark trivial
    exact ⟨_, _, .inl (split?_of_letters letters ends)⟩
  · cases rest with
    | nil =>
      refine absurd (fun _ first => ?_) ends
      cases first
    | cons c rest =>
      have equals : c = '=' := by
        by_contra other
        refine ends fun d first => ?_
        cases first
        exact fun grows => other (of_decide_eq_true grows)
      subst equals
      exact ⟨_, _, .inr rfl⟩

/-- A text that starts with no lexeme or with an idle one. -/
def Idle (cs : List Char) : Prop :=
  ∀ lexeme taken rest, Lexeme.split? cs = some (lexeme, taken, rest) → lexeme.isIdle

namespace Idle

variable {cs : List Char}

theorem not_bang (idle : Idle cs) : ¬ "!".toList <+: cs := by
  rintro ⟨rest, rfl⟩
  obtain ⟨taken, behind, bang | different⟩ := Lexeme.split?_bang rest
  · exact Bool.false_ne_true (idle _ _ _ bang)
  · exact Bool.false_ne_true (idle _ _ _ different)

theorem not_minus (idle : Idle cs) : ¬ "-".toList <+: cs := by
  rintro ⟨rest, rfl⟩
  exact Bool.false_ne_true (idle _ _ _ rfl)

/-- No expression starts there. -/
theorem expr_none (idle : Idle (unblanked cs)) :
    (Pattern.rule .expr).Leaves (cs.length + 60) (unblanked cs) none := by
  have bound := length_unblanked_le cs
  have signs := Leaves.rounds_none (unaryOperator_none idle.not_bang idle.not_minus)
  have failed := suffixed_none fun lexeme taken rest split =>
    Lexeme.not_opens_of_isIdle (idle lexeme taken rest split)
  rw [← unblanked_unblanked cs] at failed
  have unary := Leaves.rule .unary (signs.spaced failed)
  have binary := Leaves.rule .binary unary.spaced_none
  refine (Leaves.rule .expr binary.spaced_none).mono ?_
  rw [unblanked_unblanked]
  omega

end Idle

theorem Presents.idle {last cs : List Char} {tokens : List Token} (presents : Presents last cs tokens)
    (head : ∀ t ∈ tokens.head?, t.lexeme.isIdle) : Idle (unblanked cs) := by
  intro lexeme taken rest split
  obtain ⟨span, behind, rfl, _⟩ := presents.head split
  exact head _ rfl

/-- From fewer tokens than the bound the reader takes an expression where the rule for one matches, and leaves the
tokens at which the rule stops. -/
def Reader.Agrees (self : Reader Expr) (last : List Char) (bound : Nat) : Prop :=
  ∀ cs tokens, Presents last cs tokens → tokens.length < bound →
    Follows last (.rule .expr) 100 cs tokens (self.left tokens)

namespace Grammar

variable {self : Reader Expr} {last cs : List Char} {tokens : List Token} {bound : Nat}

/-- An expression and a closing mark behind it. -/
def closed (self : Reader Expr) (close : Lexeme) : Step := fun tokens =>
  (self.left tokens).bind (Step.token (· = close))

/-- A further item behind a comma. -/
def row (self : Reader Expr) : Step := fun tokens => (Step.token (· = .comma) tokens).bind self.left

theorem loop_row_of_closed {fuel : Nat} {t : Token} {rest : List Token}
    (unseparated : ∀ fuel' s, fuel = fuel' + 1 → t = ⟨.comma, s⟩ → False) :
    Step.loop (row self) fuel (t :: rest) = t :: rest := by
  cases fuel with
  | zero => rfl
  | succ fuel =>
    obtain ⟨lexeme, s⟩ := t
    have plain : ¬ lexeme = .comma := by
      rintro rfl
      exact unseparated fuel s rfl rfl
    have failed : row self (⟨lexeme, s⟩ :: rest) = none := by
      rw [row, Step.token, if_neg (by simpa using plain)]
      rfl
    exact Step.loop_stop failed _

theorem moreItems_left {close : Lexeme} (other : close ≠ .comma) (fuel : Nat) (tokens : List Token) :
    Reader.left (moreItems self close fuel) tokens = Step.token (· = close) (Step.loop (row self) fuel tokens) := by
  fun_induction moreItems self close fuel tokens with
  | case1 fuel s behind item after read items last rest more ih =>
    have step : row self (⟨.comma, s⟩ :: behind) = some after := congrArg (Option.map Prod.snd) read
    rw [Step.loop_next step, ← ih]
    simp only [Reader.left, moreItems, read, more, Option.map_some]
  | case2 fuel s behind item after read more ih =>
    have step : row self (⟨.comma, s⟩ :: behind) = some after := congrArg (Option.map Prod.snd) read
    rw [Step.loop_next step, ← ih]
    simp only [Reader.left, moreItems, read, more, Option.map_none]
  | case3 fuel s behind read =>
    have step : row self (⟨.comma, s⟩ :: behind) = none := congrArg (Option.map Prod.snd) read
    rw [Step.loop_stop step, Reader.left, moreItems, read, Step.token, if_neg (by simpa using other.symm)]
    rfl
  | case4 fuel t rest closes unseparated =>
    rw [loop_row_of_closed unseparated, Reader.left, moreItems, if_pos closes, Step.token,
      if_pos (decide_eq_true closes)]
    · rfl
    · exact unseparated
  | case5 fuel t rest goesOn unseparated =>
    rw [loop_row_of_closed unseparated, Reader.left, moreItems, if_neg goesOn, Step.token,
      if_neg (by simpa using goesOn)]
    · rfl
    · exact unseparated
  | case6 fuel => cases fuel <;> rfl

/-- If no expression starts with the closing mark, that mark is looked for behind the items, or where they would
be. -/
theorem items_left {close : Lexeme} (other : close ≠ .comma)
    (stops : (∀ t ∈ tokens.head?, t.lexeme = close) → self.left tokens = none) :
    Reader.left (items self close) tokens = Step.token (· = close)
      (((self.left tokens).map fun left => Step.loop (row self) left.length left).getD tokens) := by
  cases tokens with
  | nil =>
    rw [stops fun t first => by cases first]
    rfl
  | cons t rest =>
    by_cases closes : t.lexeme = close
    · have failed := stops fun t' first => by
        cases first
        exact closes
      rw [failed]
      simp only [Reader.left, items, Step.token, closes, if_true, decide_true, Option.map_some, Option.map_none,
        Option.getD_none]
    · cases read : self (t :: rest) with
      | none => simp [Reader.left, items, Step.token, closes, read]
      | some found =>
        have more := @moreItems_left self close other found.2.length found.2
        simp only [Reader.left, items, closes, read, Option.map_some, Option.getD_some, if_false] at more ⊢
        rw [← more]
        rcases moreItems self close found.2.length found.2 with _ | ⟨_, _⟩ <;> rfl

theorem parens_left (s : Span) (rest : List Token) :
    Reader.left (primary self) (⟨.openParen, s⟩ :: rest) = closed self .closeParen rest := by
  simp only [Reader.left, primary, closed]
  rcases self rest with _ | ⟨e, _ | ⟨⟨lexeme, s⟩, rest⟩⟩
  · rfl
  · rfl
  · cases lexeme <;> rfl

theorem list_left (s : Span) (rest : List Token) :
    Reader.left (primary self) (⟨.openBracket, s⟩ :: rest) = Reader.left (items self .closeBracket) rest := by
  simp only [Reader.left, primary]
  rcases items self .closeBracket rest with _ | ⟨_, _⟩ <;> rfl

theorem call_left {name : String} {s : Span} (free : keyword? s name = none) (rest : List Token) :
    Reader.left (primary self) (⟨.word name, s⟩ :: rest) =
      (Step.token (· = .openParen) rest).bind (Reader.left (items self .closeParen)) := by
  simp only [Reader.left, primary, free]
  rcases rest with _ | ⟨⟨lexeme, s⟩, rest⟩
  · rfl
  · cases lexeme with
    | openParen =>
      have taken : Step.token (· = .openParen) (⟨.openParen, s⟩ :: rest) = some rest := rfl
      rw [taken, Option.bind_some, Reader.left]
      dsimp only
      rcases items self .closeParen rest with _ | ⟨_, _⟩ <;> rfl
    | _ => rfl

theorem primaries_of_free {name : String} {s : Span} (free : keyword? s name = none) :
    primaries.filter (·.opens (.word name)) = [⟨.rule .call, (· matches .word _)⟩] := by
  unfold keyword? at free
  split_ifs at free with isNull isUndefined isTrue isFalse
  simp [primaries, isNull, isUndefined, isTrue, isFalse]

section Agreement

variable (agrees : self.Agrees last bound) (presents : Presents last cs tokens)

include agrees presents

theorem left_of_idle (few : tokens.length < bound) (head : ∀ t ∈ tokens.head?, t.lexeme.isIdle) :
    self.left tokens = none := by
  have follows := agrees cs tokens presents few
  cases found : self.left tokens with
  | none => rfl
  | some left =>
    rw [found] at follows
    obtain ⟨rest, leaves, _⟩ := follows
    cases leaves.unique (presents.idle head).expr_none

theorem closed_follows {close : Lexeme} {s : String} (recognizes : (Pattern.text s).Recognizes (· = close))
    (few : tokens.length < bound) :
    Follows last (.spaced [.rule .expr, .text s]) 110 cs tokens (closed self close tokens) := by
  have mark (mid : List Char) (left : List Token) (behind : Behind last cs tokens mid left) :
      Follows last (.spaced [.text s]) 30 mid left (Step.token (· = close) left) :=
    .token recognizes behind.presents
  exact (Follows.spaced (agrees cs tokens presents few) mark).mono (by omega)

theorem row_follows (few : tokens.length < bound) :
    Follows last (.spaced [.text ",", .rule .expr]) 40 cs tokens (row self tokens) := by
  have follows : Follows last (.spaced [.text ",", .rule .expr]) _ cs tokens (row self tokens) :=
    .spaced (.token comma_recognizes presents) fun mid left behind =>
      agrees mid left behind.presents (behind.fewer.trans few)
  exact follows.mono (by omega)

/-- What stands between two marks, and the closing one. -/
theorem items_follow {close : Lexeme} {s : String} (recognizes : (Pattern.text s).Recognizes (· = close))
    (other : close ≠ .comma) (idle : close.isIdle) (few : tokens.length < bound) :
    Follows last (.spaced [Rule.itemsPattern, .text s]) 110 cs tokens (Reader.left (items self close) tokens) := by
  have stops (head : ∀ t ∈ tokens.head?, t.lexeme = close) : self.left tokens = none :=
    left_of_idle agrees presents few fun t first => by rwa [head t first]
  have listed := Follows.rounds (agrees cs tokens presents few) few.le fun cs tokens presents few =>
    row_follows agrees presents few
  rw [items_left other stops]
  cases found : self.left tokens with
  | none =>
    -- Without a first item nothing is taken in front of the mark.
    have mark : Follows last (.spaced [.text s]) 30 cs tokens _ := .token recognizes presents
    rw [found] at listed
    have nothing : Rule.itemsPattern.Leaves (100 * cs.length + 104) (unblanked cs) (some (unblanked cs)) :=
      Leaves.optional_none listed
    exact (Follows.skip nothing mark).mono (by omega)
  | some left =>
    rw [found] at listed
    have mark (mid : List Char) (left : List Token) (behind : Behind last cs tokens mid left) :
        Follows last (.spaced [.text s]) 30 mid left (Step.token (· = close) left) :=
      .token recognizes behind.presents
    exact (Follows.spaced (Follows.optional listed) mark).mono (by omega)

variable (few : tokens.length ≤ bound)

include few

theorem parens_follow :
    Follows last (.spaced [.text "(", .rule .expr, .text ")"]) 40 cs tokens
      ((Step.token (· = .openParen) tokens).bind (closed self .closeParen)) := by
  have inner (mid : List Char) (left : List Token) (behind : Behind last cs tokens mid left) :=
    closed_follows agrees behind.presents closeParen_recognizes (behind.fewer.trans_le few)
  exact (Follows.spaced (.token openParen_recognizes presents) inner).mono (by omega)

theorem list_follows :
    Follows last (.rule .listLiteral) 40 cs tokens
      ((Step.token (· = .openBracket) tokens).bind (Reader.left (items self .closeBracket))) := by
  have inner (mid : List Char) (left : List Token) (behind : Behind last cs tokens mid left) :=
    items_follow agrees behind.presents closeBracket_recognizes (by decide) rfl (behind.fewer.trans_le few)
  have body : Follows last Rule.listLiteral.body _ cs tokens _ :=
    .spaced (.token openBracket_recognizes presents) inner
  exact (Follows.rule body).mono (by omega)

theorem call_follows :
    Follows last (.rule .call) 40 cs tokens ((Step.token (· matches .word _) tokens).bind fun left =>
      (Step.token (· = .openParen) left).bind (Reader.left (items self .closeParen))) := by
  have arguments (mid : List Char) (left : List Token) (behind : Behind last cs tokens mid left) :
      Follows last (.spaced [.text "(", Rule.itemsPattern, .text ")"]) 40 mid left
        ((Step.token (· = .openParen) left).bind (Reader.left (items self .closeParen))) := by
    have inner (mid' : List Char) (left' : List Token) (behind' : Behind last mid left mid' left') :=
      items_follow agrees behind'.presents closeParen_recognizes (by decide) rfl
        (behind'.fewer.trans (behind.fewer.trans_le few))
    exact (Follows.spaced (.token openParen_recognizes behind.presents) inner).mono (by omega)
  have body : Follows last Rule.call.body _ cs tokens _ :=
    .spaced (.token identifier_recognizes presents) arguments
  exact (Follows.rule body).mono (by omega)

theorem primary_follows :
    Follows last (Choice.patterns primaries) 60 cs tokens (Reader.left (primary self) tokens) := by
  have nowhere (other : ∀ t ∈ tokens.head?, primaries.filter (·.opens t.lexeme) = []) :
      Follows last (Choice.patterns primaries) 60 cs tokens none :=
    (Follows.no_choice primaries_sound (List.cons_ne_nil _ _) presents other).mono (by decide)
  cases tokens with
  | nil => exact nowhere fun t first => by cases first
  | cons t rest =>
    obtain ⟨lexeme, s⟩ := t
    cases lexeme with
    | word name =>
      cases found : keyword? s name with
      | some e =>
        have answer : Reader.left (primary self) (⟨.word name, s⟩ :: rest) = some rest := by
          simp only [Reader.left, primary, found, Option.map_some]
        rw [answer]
        obtain ⟨rfl, rfl⟩ | ⟨rfl, rfl⟩ | ⟨b, rfl, rfl⟩ := keyword?_cases found
        · have follows := Follows.token nullLiteral_recognizes presents
          exact (Follows.choice primaries_sound presents rfl (.inr rfl) follows).mono (by decide)
        · have follows := Follows.token undefinedLiteral_recognizes presents
          exact (Follows.choice primaries_sound presents rfl (.inr rfl) follows).mono (by decide)
        · have follows := Follows.token boolLiteral_recognizes presents
          cases b <;> exact (Follows.choice primaries_sound presents rfl (.inr rfl) follows).mono (by decide)
      | none =>
        have follows := call_follows agrees presents few
        rw [call_left found]
        have first := primaries_of_free found
        exact (Follows.choice primaries_sound presents first (.inl rfl) follows).mono (by decide)
    | numeral digits =>
      have follows := Follows.token number_recognizes presents
      exact (Follows.choice primaries_sound presents rfl (.inl rfl) follows).mono (by decide)
    | quoted content =>
      have follows := Follows.token quotedString_recognizes presents
      exact (Follows.choice primaries_sound presents rfl (.inl rfl) follows).mono (by decide)
    | ref scope name =>
      have follows := Follows.token reference_recognizes presents
      exact (Follows.choice primaries_sound presents rfl (.inl rfl) follows).mono (by decide)
    | openBracket =>
      have follows := list_follows agrees presents few
      rw [list_left]
      exact (Follows.choice primaries_sound presents rfl (.inl rfl) follows).mono (by decide)
    | openParen =>
      have follows := parens_follow agrees presents few
      rw [parens_left]
      exact (Follows.choice primaries_sound presents rfl (.inl rfl) follows).mono (by decide)
    | _ =>
      refine nowhere fun t first => ?_
      cases first
      rfl

end Agreement

end Grammar

end LazyExpr
