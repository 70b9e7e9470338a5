import LazyExpr.Proofs.Syntax.Terminals
import LazyExpr.Syntax.Grammar

namespace LazyExpr

open Pattern (Leaves)

/-- The tokens of a text up to the first place at which none starts, and the text from there on. Where the tokens
stand does not matter. -/
inductive Presents (last : List Char) : List Char → List Token → Prop
  | stop {cs : List Char} : unblanked cs = last → Lexeme.split? last = none → Presents last cs []
  | token {cs taken rest : List Char} {t : Token} {tokens : List Token} :
      Lexeme.split? (unblanked cs) = some (t.lexeme, taken, rest) → Presents last rest tokens →
      Presents last cs (t :: tokens)

theorem Lexeme.length_of_split? {cs taken rest : List Char} {lexeme : Lexeme}
    (split : split? (unblanked cs) = some (lexeme, taken, rest)) : rest.length < cs.length := by
  obtain ⟨whole, made⟩ := split?_made split
  have positive := List.length_pos_iff.mpr made.ne_nil
  have shorter := length_unblanked_le cs
  rw [← whole, List.length_append] at shorter
  omega

namespace Presents

variable {last cs cs' taken rest : List Char} {t : Token} {tokens : List Token} {lexeme : Lexeme}

theorem congr (presents : Presents last cs tokens) (same : unblanked cs' = unblanked cs) :
    Presents last cs' tokens := by
  cases presents with
  | stop stops none => exact .stop (same.trans stops) none
  | token split behind => exact .token (by rwa [same]) behind

/-- Every text presents some tokens. -/
theorem exists_tokens (cs : List Char) : ∃ last tokens, Presents last cs tokens := by
  induction size : cs.length using Nat.strong_induction_on generalizing cs with
  | _ n ih =>
    subst size
    rcases split : Lexeme.split? (unblanked cs) with _ | ⟨lexeme, taken, rest⟩
    · exact ⟨_, _, .stop rfl split⟩
    · obtain ⟨last, tokens, presents⟩ := ih rest.length (Lexeme.length_of_split? split) rest rfl
      exact ⟨last, ⟨lexeme, .synthetic⟩ :: tokens, .token split presents⟩

/-- The first token is what is split off. -/
theorem head (presents : Presents last cs tokens)
    (split : Lexeme.split? (unblanked cs) = some (lexeme, taken, rest)) :
    ∃ span behind, tokens = ⟨lexeme, span⟩ :: behind ∧ Presents last rest behind := by
  cases presents with
  | stop stops none =>
    rw [stops, none] at split
    cases split
  | @token _ _ _ t tokens split' behind =>
    rw [split'] at split
    cases split
    exact ⟨t.span, tokens, rfl, behind⟩

theorem split (presents : Presents last cs (t :: tokens)) : ∃ taken rest, unblanked cs = taken ++ rest ∧
    t.lexeme.Letters taken ∧ t.lexeme.Ends rest ∧ Presents last rest tokens ∧ rest.length < cs.length := by
  cases presents with
  | token split behind =>
    obtain ⟨whole, letters, ends⟩ := Lexeme.split?_eq_some_iff.mp split
    exact ⟨_, _, whole, letters, ends, behind, Lexeme.length_of_split? split⟩

end Presents

/-- A place in a text at which these tokens are left, behind another place with its tokens. -/
structure Behind (last cs : List Char) (tokens : List Token) (rest : List Char) (left : List Token) : Prop where
  presents : Presents last rest left
  shorter : rest.length < cs.length
  fewer : left.length < tokens.length

/-- What a part of the grammar leaves of the tokens, if it can take any. -/
abbrev Step := List Token → Option (List Token)

/-- The tokens that a reader leaves. -/
def Reader.left {α : Type} (reader : Reader α) : Step := fun tokens => (reader tokens).map Prod.snd

/-- One token of this kind. -/
def Step.token (kind : Lexeme → Bool) : Step
  | t :: rest => if kind t.lexeme then some rest else none
  | [] => none

/-- As many steps as are possible, one after the other. -/
def Step.loop (step : Step) : Nat → List Token → List Token
  | 0, tokens => tokens
  | fuel + 1, tokens =>
    match step tokens with
    | some rest => loop step fuel rest
    | none => tokens

namespace Step

variable {step : Step} {tokens rest : List Token}

theorem loop_next (found : step tokens = some rest) (fuel : Nat) :
    step.loop (fuel + 1) tokens = step.loop fuel rest := by
  rw [loop, found]

theorem loop_stop (failed : step tokens = none) (fuel : Nat) : step.loop fuel tokens = tokens := by
  cases fuel with
  | zero => rfl
  | succ fuel => rw [loop, failed]

end Step

/-- A pattern goes the way of a step: with that answer of the step it stops where those tokens are left, and without
an answer it fails. It needs a hundred fuel for each character, and some to spare. -/
def Follows (last : List Char) (p : Pattern) (spare : Nat) (cs : List Char) (tokens : List Token) :
    Option (List Token) → Prop
  | some left =>
    ∃ rest, p.Leaves (100 * cs.length + spare) (unblanked cs) (some rest) ∧ Behind last cs tokens rest left
  | none => p.Leaves (100 * cs.length + spare) (unblanked cs) none

namespace Pattern

variable {p : Pattern} {kind : Lexeme → Bool} {last cs : List Char} {t : Token} {tokens : List Token}

theorem Recognizes.takes (recognizes : p.Recognizes kind) (presents : Presents last cs (t :: tokens))
    (accepted : kind t.lexeme) : ∃ rest, p.Leaves (cs.length + 30) (unblanked cs) (some rest) ∧
      Presents last rest tokens ∧ rest.length < cs.length := by
  obtain ⟨taken, rest, whole, letters, ends, behind, shorter⟩ := presents.split
  have bound := length_unblanked_le cs
  have leaves := recognizes.found accepted letters ends
  rw [← whole] at leaves
  exact ⟨rest, leaves.mono (by omega), behind, shorter⟩

theorem Recognizes.fails (recognizes : p.Recognizes kind) (presents : Presents last cs tokens)
    (other : ∀ t ∈ tokens.head?, ¬ kind t.lexeme) : p.Leaves (cs.length + 30) (unblanked cs) none := by
  have bound := length_unblanked_le cs
  refine (recognizes.missed fun lexeme taken rest split => ?_).mono (n := (unblanked cs).length + 30) (by omega)
  obtain ⟨span, behind, rfl, _⟩ := presents.head split
  exact other _ rfl

/-- Rounds leave this of a text, whether the first of them is still to come or not. -/
structure Rounds (p : Pattern) (n : Nat) (cs rest : List Char) : Prop where
  further : (Pattern.many (.seq .blanks p)).Leaves (n + 3) cs (some rest)
  whole : ∃ rest', (Pattern.rounds p).Leaves (n + 5) (unblanked cs) (some rest') ∧
    unblanked rest' = unblanked rest ∧ rest'.length ≤ rest.length

variable {n n' : Nat} {mid rest : List Char}

theorem Rounds.none (round : p.Leaves n (unblanked cs) none) : p.Rounds n cs cs where
  further := Leaves.further_none round
  whole := ⟨unblanked cs, (Leaves.rounds_none round).mono (by omega), unblanked_unblanked cs,
    length_unblanked_le cs⟩

theorem Rounds.next (round : p.Leaves n (unblanked cs) (some mid)) (others : p.Rounds n' mid rest) :
    p.Rounds (max n (n' + 1)) cs rest where
  further := (Leaves.further round others.further).mono (by omega)
  whole := ⟨rest, (Leaves.rounds round others.further).mono (by omega), rfl, Nat.le_refl _⟩

theorem Rounds.mono (rounds : p.Rounds n cs rest) (le : n ≤ n') : p.Rounds n' cs rest where
  further := rounds.further.mono (by omega)
  whole := by
    obtain ⟨rest', leaves, same, shorter⟩ := rounds.whole
    exact ⟨rest', leaves.mono (by omega), same, shorter⟩

end Pattern

/-- Rounds of a pattern that follows a step go the way of the loop of that step. -/
theorem loop_follows {last cs : List Char} {p : Pattern} {spare fuel bound : Nat} {step : Step}
    {tokens : List Token}
    (each : ∀ cs tokens, Presents last cs tokens → tokens.length < bound →
      Follows last p spare cs tokens (step tokens))
    (presents : Presents last cs tokens) (few : tokens.length < bound) (enough : tokens.length ≤ fuel) :
    ∃ rest, p.Rounds (100 * cs.length + spare) cs rest ∧ Presents last rest (step.loop fuel tokens) ∧
      rest.length ≤ cs.length ∧ (step.loop fuel tokens).length ≤ tokens.length := by
  have follows := each cs tokens presents few
  fun_induction Step.loop step fuel tokens generalizing cs with
  | case1 tokens =>
    cases found : step tokens with
    | none =>
      rw [found] at follows
      exact ⟨cs, .none follows, presents, Nat.le_refl _, Nat.le_refl _⟩
    | some left =>
      rw [found] at follows
      obtain ⟨rest, _, behind⟩ := follows
      exact absurd (behind.fewer.trans_le enough) (Nat.not_lt_zero _)
  | case2 fuel tokens left found ih =>
    rw [found] at follows
    obtain ⟨mid, leaves, behind⟩ := follows
    have fewer := behind.fewer
    have shorter := behind.shorter
    have few' : left.length < bound := by omega
    obtain ⟨rest, rounds, presents', le, le'⟩ :=
      ih behind.presents few' (by omega) (each mid left behind.presents few')
    exact ⟨rest, (Pattern.Rounds.next leaves rounds).mono (by omega), presents', by omega, by omega⟩
  | case3 fuel tokens found =>
    rw [found] at follows
    exact ⟨cs, .none follows, presents, Nat.le_refl _, Nat.le_refl _⟩

/-- An alternative with the lexemes that it can start with. -/
structure Choice where
  pattern : Pattern
  opens : Lexeme → Bool

/-- In front of a text that starts with no such lexeme the alternative fails. -/
def Choice.Sound (c : Choice) : Prop :=
  ∀ {cs}, (∀ lexeme taken rest, Lexeme.split? cs = some (lexeme, taken, rest) → ¬ c.opens lexeme) →
    c.pattern.Leaves (cs.length + 33) cs none

theorem Pattern.Recognizes.sound {p : Pattern} {kind : Lexeme → Bool} (recognizes : p.Recognizes kind) :
    Choice.Sound ⟨p, kind⟩ := fun other => (recognizes.missed other).mono (by omega)

namespace Choice

def patterns (choices : List Choice) : Pattern := Pattern.firstOf (choices.map (·.pattern))

variable {c : Choice} {choices more : List Choice} {cs : List Char}

theorem patterns_none (sound : ∀ c ∈ choices, c.Sound) (nonempty : choices ≠ [])
    (other : ∀ lexeme taken rest, Lexeme.split? cs = some (lexeme, taken, rest) → ∀ c ∈ choices, ¬ c.opens lexeme) :
    (patterns choices).Leaves (cs.length + 33 + choices.length) cs none := by
  induction choices with
  | nil => exact absurd rfl nonempty
  | cons c choices ih =>
    obtain ⟨here, others⟩ := List.forall_mem_cons.mp sound
    have failed := here fun lexeme taken rest split => other lexeme taken rest split c List.mem_cons_self
    cases choices with
    | nil => exact failed.mono (by omega)
    | cons d choices =>
      have behind := ih others (List.cons_ne_nil _ _) fun lexeme taken rest split d listed =>
        other lexeme taken rest split d (List.mem_cons_of_mem c listed)
      refine (failed.either_none behind).mono ?_
      simp only [List.length_cons]
      omega

/-- Of the alternatives that can start with the lexeme that stands there the first one decides, if it matches or if
there is no other. -/
theorem patterns_first {lexeme : Lexeme} {taken rest : List Char} {n : Nat} {left : Option (List Char)}
    (sound : ∀ c ∈ choices, c.Sound) (split : Lexeme.split? cs = some (lexeme, taken, rest))
    (first : choices.filter (·.opens lexeme) = c :: more) (alone : more = [] ∨ left.isSome)
    (leaves : c.pattern.Leaves n cs left) :
    (patterns choices).Leaves (max n (cs.length + 33) + choices.length) cs left := by
  induction choices with
  | nil => cases first
  | cons d choices ih =>
    obtain ⟨here, others⟩ := List.forall_mem_cons.mp sound
    by_cases opens : d.opens lexeme
    · rw [List.filter_cons, if_pos opens] at first
      obtain ⟨rfl, others'⟩ := List.cons.inj first
      cases choices with
      | nil => exact leaves.mono (by omega)
      | cons d' choices =>
        cases left with
        | some left =>
          refine leaves.either.mono ?_
          simp only [List.length_cons]
          omega
        | none =>
          have closed := alone.resolve_right Bool.false_ne_true
          have failed := patterns_none others (List.cons_ne_nil _ _) fun lexeme' taken' rest' split' e listed => by
            rw [split] at split'
            cases split'
            exact List.filter_eq_nil_iff.mp (others'.trans closed) e listed
          refine (leaves.either_none failed).mono ?_
          simp only [List.length_cons]
          omega
    · rw [List.filter_cons, if_neg opens] at first
      have failed := here fun lexeme' taken' rest' split' => by
        rw [split] at split'
        cases split'
        exact opens
      cases choices with
      | nil => cases first
      | cons d' choices =>
        refine (failed.either_none (ih others first)).mono ?_
        simp only [List.length_cons]
        omega

end Choice

namespace Follows

variable {last cs : List Char} {p q : Pattern} {spare spare' bound : Nat} {tokens : List Token} {t : Token}
  {answer : Option (List Token)}

theorem mono (follows : Follows last p spare cs tokens answer) (le : spare ≤ spare') :
    Follows last p spare' cs tokens answer := by
  cases answer with
  | none => exact Leaves.mono follows (by omega)
  | some left =>
    obtain ⟨rest, leaves, behind⟩ := follows
    exact ⟨rest, leaves.mono (by omega), behind⟩

theorem token {kind : Lexeme → Bool} (recognizes : p.Recognizes kind) (presents : Presents last cs tokens) :
    Follows last p 30 cs tokens (Step.token kind tokens) := by
  cases tokens with
  | nil => exact (recognizes.fails presents fun t first => by cases first).mono (by omega)
  | cons t tokens =>
    rw [Step.token]
    split
    · rename_i accepted
      obtain ⟨rest, leaves, behind, shorter⟩ := recognizes.takes presents accepted
      exact ⟨rest, leaves.mono (by omega), behind, shorter, Nat.lt_succ_self _⟩
    · rename_i refused
      refine (recognizes.fails presents fun t first => ?_).mono (by omega)
      cases first
      exact refused

theorem rule {r : Rule} (body : Follows last r.body spare cs tokens answer) :
    Follows last (.rule r) (spare + 1) cs tokens answer := by
  cases answer with
  | none => exact Leaves.rule r body
  | some left =>
    obtain ⟨rest, leaves, behind⟩ := body
    exact ⟨rest, Leaves.rule r leaves, behind⟩

theorem optional {left : List Token} (follows : Follows last p spare cs tokens (some left)) :
    Follows last (.optional p) (spare + 1) cs tokens (some left) := by
  obtain ⟨rest, leaves, behind⟩ := follows
  exact ⟨rest, Leaves.optional leaves, behind⟩

/-- Parts of a row follow steps one after the other. -/
theorem spaced {ps : List Pattern} {step : Step}
    (first : Follows last p spare cs tokens answer)
    (others : ∀ mid left, Behind last cs tokens mid left →
      Follows last (.spaced (q :: ps)) spare' mid left (step left)) :
    Follows last (.spaced (p :: q :: ps)) (max spare (spare' - 100) + 3) cs tokens (answer.bind step) := by
  cases answer with
  | none => exact (Leaves.spaced_none first).mono (by omega)
  | some left =>
    obtain ⟨mid, leaves, behind⟩ := first
    have shorter := behind.shorter
    have fewer := behind.fewer
    have follows := others mid left behind
    rw [Option.bind_some]
    cases found : step left with
    | none =>
      rw [found] at follows
      exact (Leaves.spaced leaves follows).mono (by omega)
    | some left' =>
      rw [found] at follows
      obtain ⟨rest, leaves', behind'⟩ := follows
      refine ⟨rest, (Leaves.spaced leaves leaves').mono (by omega), behind'.presents, ?_, ?_⟩
      · exact behind'.shorter.trans shorter
      · exact behind'.fewer.trans fewer

/-- A part that takes nothing leaves the row to the others. -/
theorem skip {ps : List Pattern}
    (first : p.Leaves (100 * cs.length + spare) (unblanked cs) (some (unblanked cs)))
    (others : Follows last (.spaced (q :: ps)) spare' cs tokens answer) :
    Follows last (.spaced (p :: q :: ps)) (max spare spare' + 3) cs tokens answer := by
  cases answer with
  | none =>
    rw [Follows, ← unblanked_unblanked cs] at others
    exact (Leaves.spaced first others).mono (by omega)
  | some left =>
    obtain ⟨rest, leaves, behind⟩ := others
    rw [← unblanked_unblanked cs] at leaves
    exact ⟨rest, (Leaves.spaced first leaves).mono (by omega), behind⟩

/-- Where an optional last part fails the tokens in front of it are left. -/
theorem spaced_optional {step : Step} (first : Follows last p spare cs tokens answer)
    (others : ∀ mid left, Behind last cs tokens mid left → Follows last q spare' mid left (step left)) :
    Follows last (.spaced [p, .optional q]) (max spare (spare' - 99) + 3) cs tokens
      (answer.map fun left => (step left).getD left) := by
  cases answer with
  | none => exact (Leaves.spaced_none first).mono (by omega)
  | some left =>
    obtain ⟨mid, leaves, behind⟩ := first
    have shorter := behind.shorter
    have follows := others mid left behind
    rw [Option.map_some]
    cases found : step left with
    | none =>
      rw [found] at follows
      have optional : (Pattern.spaced [.optional q]).Leaves _ (unblanked mid) _ := Leaves.optional_none follows
      have presents := behind.presents.congr (unblanked_unblanked mid)
      refine ⟨_, (Leaves.spaced leaves optional).mono (by omega), presents, ?_, ?_⟩
      · exact (length_unblanked_le mid).trans_lt shorter
      · exact behind.fewer
    | some left' =>
      rw [found] at follows
      obtain ⟨rest, leaves', behind'⟩ := follows
      have optional : (Pattern.spaced [.optional q]).Leaves _ (unblanked mid) _ := Leaves.optional leaves'
      refine ⟨rest, (Leaves.spaced leaves optional).mono (by omega), behind'.presents, ?_, ?_⟩
      · exact behind'.shorter.trans shorter
      · exact behind'.fewer.trans behind.fewer

/-- Rounds of a pattern behind a first part loop over the step that the pattern follows. -/
theorem rounds {step : Step} (first : Follows last p spare cs tokens answer)
    (few : tokens.length ≤ bound)
    (each : ∀ cs tokens, Presents last cs tokens → tokens.length < bound →
      Follows last q spare' cs tokens (step tokens)) :
    Follows last (.spaced [p, .rounds q]) (max spare (spare' - 95) + 3) cs tokens
      (answer.map fun left => step.loop left.length left) := by
  cases answer with
  | none => exact (Leaves.spaced_none first).mono (by omega)
  | some left =>
    obtain ⟨mid, leaves, behind⟩ := first
    have shorter := behind.shorter
    have fewer := behind.fewer
    obtain ⟨rest, rounds, presents, le, le'⟩ := loop_follows each behind.presents (by omega) (Nat.le_refl _)
    obtain ⟨rest', whole, same, le''⟩ := rounds.whole
    have whole : (Pattern.spaced [.rounds q]).Leaves _ (unblanked mid) (some rest') := whole
    refine ⟨rest', (Leaves.spaced leaves whole).mono (by omega), presents.congr same, by omega, ?_⟩
    exact le'.trans_lt fewer

theorem choice {choices more : List Choice} {c : Choice} (sound : ∀ c ∈ choices, c.Sound)
    (presents : Presents last cs (t :: tokens)) (first : choices.filter (·.opens t.lexeme) = c :: more)
    (alone : more = [] ∨ answer.isSome) (follows : Follows last c.pattern spare cs (t :: tokens) answer) :
    Follows last (Choice.patterns choices) (max spare 33 + choices.length) cs (t :: tokens) answer := by
  have bound := length_unblanked_le cs
  cases presents with
  | token split behind =>
    cases answer with
    | none => exact (Choice.patterns_first sound split first alone follows).mono (by omega)
    | some left =>
      obtain ⟨rest, leaves, behind⟩ := follows
      exact ⟨rest, (Choice.patterns_first sound split first (.inr rfl) leaves).mono (by omega), behind⟩

theorem no_choice {choices : List Choice} (sound : ∀ c ∈ choices, c.Sound) (nonempty : choices ≠ [])
    (presents : Presents last cs tokens) (other : ∀ t ∈ tokens.head?, choices.filter (·.opens t.lexeme) = []) :
    Follows last (Choice.patterns choices) (33 + choices.length) cs tokens none := by
  have bound := length_unblanked_le cs
  refine (Choice.patterns_none sound nonempty fun lexeme taken rest split => ?_).mono
    (n := (unblanked cs).length + 33 + choices.length) (by omega)
  obtain ⟨span, behind, rfl, _⟩ := presents.head split
  exact List.filter_eq_nil_iff.mp (other _ rfl)

end Follows

end LazyExpr
