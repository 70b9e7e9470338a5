import Mathlib
import LazyExpr.Proofs.Syntax.Lexing
import LazyExpr.Proofs.Syntax.Patterns
import LazyExpr.Proofs.Syntax.Quoting

namespace LazyExpr

open Pattern (Leaves)

/-- The pattern matches in front of a text that starts with a lexeme of this kind, and takes that lexeme. In
front of any other text it fails. -/
structure Pattern.Recognizes (p : Pattern) (kind : Lexeme → Bool) : Prop where
  found {lexeme : Lexeme} {taken rest : List Char} : kind lexeme → lexeme.Letters taken → lexeme.Ends rest →
    p.Leaves ((taken ++ rest).length + 30) (taken ++ rest) (some rest)
  missed {cs : List Char} : (∀ lexeme taken rest, Lexeme.split? cs = some (lexeme, taken, rest) → ¬ kind lexeme) →
    p.Leaves (cs.length + 30) cs none

namespace Pattern.Leaves

variable {accepts : Char → Bool} {taken rest : List Char}

/-- Characters of one kind are taken up to the first of another. -/
theorem run (accepted : ∀ c ∈ taken, accepts c) (ends : ∀ c ∈ rest.head?, ¬ accepts c) :
    (Pattern.many (.one accepts)).Leaves (taken.length + 2) (taken ++ rest) (some rest) := by
  induction taken with
  | nil => exact many_none (one_none ends)
  | cons c taken ih =>
    obtain ⟨here, others⟩ := List.forall_mem_cons.mp accepted
    refine (many (one here) (ih others)).mono ?_
    rw [List.length_cons]
    omega

theorem atLeastOne (accepted : ∀ c ∈ taken, accepts c) (some : taken ≠ []) (ends : ∀ c ∈ rest.head?, ¬ accepts c) :
    (Pattern.atLeastOne accepts).Leaves (taken.length + 2) (taken ++ rest) (.some rest) := by
  cases taken with
  | nil => exact absurd rfl some
  | cons c taken =>
    obtain ⟨here, others⟩ := List.forall_mem_cons.mp accepted
    refine (seq (one here) (run others ends)).mono ?_
    rw [List.length_cons]
    omega

theorem atLeastOne_none {cs : List Char} (ends : ∀ c ∈ cs.head?, ¬ accepts c) :
    (Pattern.atLeastOne accepts).Leaves 2 cs none :=
  seq_none (one_none ends)

/-- A word does not go on behind its end. -/
theorem wordEnd {name : String} (ends : (Lexeme.word name).Ends rest) : Rule.wordEnd.Leaves 2 rest (some rest) :=
  absent_none (one_none ends)

theorem wordEnd_none {name : String} (goesOn : ¬ (Lexeme.word name).Ends rest) :
    Rule.wordEnd.Leaves 2 rest none := by
  cases rest with
  | nil => exact absurd (fun c member => absurd member (Option.not_mem_none c)) goesOn
  | cons c rest =>
    by_cases part : isWordPart c
    · exact absent (one part)
    · refine absurd (fun d first => ?_) goesOn
      cases first
      exact part

end Pattern.Leaves

/-- A mark that no other character makes longer. -/
theorem mark_recognizes {mark : Lexeme} {s : String} (isMark : mark.IsMark) (letters : s.toList = mark.mark)
    (final : ∀ rest, mark.Ends rest) : (Pattern.text s).Recognizes (· = mark) where
  found {lexeme taken rest} kind spelled _ := by
    obtain rfl := of_decide_eq_true kind
    have same : taken = s.toList := by
      rw [letters]
      cases spelled with
      | mark => rfl
      | _ => cases isMark
    rw [same]
    exact Leaves.text.mono (by omega)
  missed {cs} other := by
    refine (Leaves.text_none ?_).mono (by omega)
    rintro ⟨rest, rfl⟩
    rw [letters] at other
    exact other _ _ _ (Lexeme.split?_of_letters (.mark isMark) (final rest)) (decide_eq_true rfl)

theorem assertPresent_recognizes : (Pattern.rule .assertPresent).Recognizes (· = .bang) where
  found {lexeme taken rest} kind spelled ends := by
    obtain rfl := of_decide_eq_true kind
    cases spelled
    have unequal : ¬ "=".toList <+: rest := by
      rintro ⟨behind, rfl⟩
      exact ends '=' rfl rfl
    have mark : (Pattern.text "!").Leaves 1 (['!'] ++ rest) (some rest) := Leaves.text
    exact (Leaves.rule .assertPresent (mark.seq (Leaves.text_none unequal).absent_none)).mono (by omega)
  missed {cs} other := by
    by_cases mark : "!".toList <+: cs
    · obtain ⟨rest, rfl⟩ := mark
      by_cases equal : "=".toList <+: rest
      · obtain ⟨behind, rfl⟩ := equal
        exact (Leaves.rule .assertPresent (Leaves.text.seq Leaves.text.absent)).mono (by omega)
      · have ends : Lexeme.bang.Ends rest := by
          intro c first equals
          cases rest with
          | nil => cases first
          | cons d rest =>
            cases first
            exact equal ⟨rest, congrArg (· :: rest) (of_decide_eq_true equals).symm⟩
        exact absurd rfl (other .bang ['!'] rest (Lexeme.split?_of_letters (.mark trivial) ends))
    · exact (Leaves.rule .assertPresent (Leaves.text_none mark).seq_none).mono (by omega)

theorem identifier_leaves {name : String} {rest : List Char} (word : IsWord name)
    (ends : (Lexeme.word name).Ends rest) :
    (Pattern.rule .identifier).Leaves ((name.toList ++ rest).length + 5) (name.toList ++ rest) (some rest) := by
  obtain ⟨c, cs, chars, start, parts⟩ := word
  rw [chars]
  refine (Leaves.rule .identifier ((Leaves.one start).seq (Leaves.run parts ends))).mono ?_
  simp only [List.length_append, List.length_cons]
  omega

theorem identifier_cases (cs : List Char) :
    (∃ name rest, cs = name.toList ++ rest ∧ IsWord name ∧ (Lexeme.word name).Ends rest) ∨
      (Pattern.rule .identifier).Leaves 3 cs none := by
  cases cs with
  | nil => exact .inr (Leaves.rule .identifier (Leaves.seq_none (Leaves.one_none fun _ first => by cases first)))
  | cons c cs =>
    by_cases start : isWordStart c
    · have word := @isWord_splitWord c cs start
      refine .inl ⟨_, (splitWord (c :: cs)).2, ?_, word, not_head_dropWhile isWordPart (c :: cs)⟩
      rw [String.toList_ofList, splitWord_splits]
    · refine .inr (Leaves.rule .identifier (Leaves.seq_none (Leaves.one_none ?_)))
      rintro _ ⟨⟩
      exact start

theorem identifier_recognizes : (Pattern.rule .identifier).Recognizes (· matches .word _) where
  found {lexeme taken rest} kind spelled ends := by
    cases lexeme with
    | word name =>
      cases spelled with
      | word word => exact (identifier_leaves word ends).mono (by omega)
      | mark isMark => cases isMark
    | _ => cases kind
  missed {cs} other := by
    rcases identifier_cases cs with ⟨name, rest, rfl, word, ends⟩ | failed
    · exact absurd rfl (other _ _ _ (Lexeme.split?_word word ends))
    · exact failed.mono (by omega)

/-- Behind digits that end there, there is no point with places. -/
theorem places_none {digits rest : List Char} (all : ∀ c ∈ digits, c.isDigit)
    (ends : (Lexeme.numeral digits).Ends rest) :
    (Pattern.joined [.text ".", .atLeastOne Char.isDigit]).Leaves 4 rest none := by
  by_cases point : ".".toList <+: rest
  · obtain ⟨places, rfl⟩ := point
    have other : ∀ c ∈ places.head?, ¬ c.isDigit := by
      intro c first
      cases places with
      | nil => cases first
      | cons d places =>
        cases first
        exact ends.2 (not_mem_point all) c places rfl
    exact (Leaves.text.seq (Leaves.atLeastOne_none other)).mono (by omega)
  · exact (Leaves.text_none point).seq_none.mono (by omega)

theorem number_leaves {digits rest : List Char} (numeral : IsNumeral digits)
    (ends : (Lexeme.numeral digits).Ends rest) :
    (Pattern.rule .number).Leaves ((digits ++ rest).length + 7) (digits ++ rest) (some rest) := by
  cases numeral with
  | whole some all =>
    have behind := (places_none all ends).optional_none
    refine (Leaves.rule .number ((Leaves.atLeastOne all some ends.1).seq behind)).mono ?_
    rw [List.length_append]
    omega
  | @pointed digits places some all someBehind allBehind =>
    have point : ∀ c ∈ ('.' :: (places ++ rest)).head?, ¬ c.isDigit := by
      rintro _ ⟨⟩
      decide
    have mark : (Pattern.text ".").Leaves 1 ('.' :: (places ++ rest)) (.some (places ++ rest)) := Leaves.text
    have behind := (mark.seq (Leaves.atLeastOne allBehind someBehind ends.1)).optional
    rw [List.append_assoc, List.cons_append]
    refine (Leaves.rule .number ((Leaves.atLeastOne all some point).seq behind)).mono ?_
    simp only [List.length_append, List.length_cons]
    omega

theorem number_recognizes : (Pattern.rule .number).Recognizes (· matches .numeral _) where
  found {lexeme taken rest} kind spelled ends := by
    cases lexeme with
    | numeral digits =>
      cases spelled with
      | numeral numeral => exact (number_leaves numeral ends).mono (by omega)
      | mark isMark => cases isMark
    | _ => cases kind
  missed {cs} other := by
    refine (Leaves.rule .number (Leaves.seq_none (Leaves.atLeastOne_none ?_))).mono (by omega)
    intro c first digit
    cases cs with
    | nil => cases first
    | cons d cs =>
      cases first
      exact other _ _ _ (by rw [Lexeme.split?, if_neg (not_isWordStart_of_digit digit), if_pos digit]) rfl

theorem quotedString_leaves (cs : List Char) :
    (Pattern.rule .quotedString).Leaves (cs.length + 30) cs ((Quoted.decode cs).map (·.2.2)) := by
  intro fuel quiet offset m enough
  obtain ⟨more, rfl⟩ := Nat.exists_eq_add_of_le enough
  have split : cs.length + 30 + more = (cs.length + 22 + more) + 8 := by omega
  rw [split, Mismatch.trace_quotedString quiet m offset cs (by omega), Option.map_map]
  rfl

theorem quotedString_recognizes : (Pattern.rule .quotedString).Recognizes (· matches .quoted _) where
  found {lexeme taken rest} kind spelled _ := by
    cases lexeme with
    | quoted content =>
      cases spelled with
      | quoted decoded =>
        have leaves := quotedString_leaves (taken ++ rest)
        rwa [Quoted.decode_rest decoded rest] at leaves
      | mark isMark => cases isMark
    | _ => cases kind
  missed {cs} other := by
    have leaves := quotedString_leaves cs
    rcases decoded : Quoted.decode cs with _ | ⟨content, taken, rest⟩
    · rwa [decoded] at leaves
    · obtain ⟨rfl, _⟩ := Quoted.decode_splits decoded
      have literal := Quoted.decode_rest decoded []
      rw [List.append_nil] at literal
      exact absurd rfl (other _ _ _ (Lexeme.split?_of_letters (.quoted literal) trivial))

theorem reference_leaves {scope name : String} (isScope : IsWord scope) (isName : IsWord name) (rest : List Char) :
    let cs := "\x7b\x7b".toList ++ (scope.toList ++ (":".toList ++ (name.toList ++ ("\x7d\x7d".toList ++ rest))))
    (Pattern.rule .reference).Leaves (cs.length + 20) cs (some rest) := by
  have closed : (Pattern.text "\x7d\x7d").Leaves 1 ("\x7d\x7d".toList ++ rest) (some rest) := Leaves.text
  have endsName : (Lexeme.word name).Ends ("\x7d\x7d".toList ++ rest) := by
    rintro _ ⟨⟩
    decide
  have colon := (Leaves.text (s := ":")).seq ((identifier_leaves isName endsName).seq closed)
  have endsScope : (Lexeme.word scope).Ends (":".toList ++ (name.toList ++ ("\x7d\x7d".toList ++ rest))) := by
    rintro _ ⟨⟩
    decide
  have taken := Leaves.rule .scope (identifier_leaves isScope endsScope)
  refine (Leaves.rule .reference (Leaves.text.seq (taken.seq colon))).mono ?_
  simp only [List.length_append]
  omega

theorem reference_recognizes : (Pattern.rule .reference).Recognizes (· matches .ref _ _) where
  found {lexeme taken rest} kind spelled _ := by
    cases lexeme with
    | ref scope name =>
      cases spelled with
      | ref isScope isName =>
        have leaves := reference_leaves isScope isName rest
        simp only [List.append_assoc, List.cons_append]
        exact leaves.mono (Nat.le_add_right _ 10)
      | mark isMark => cases isMark
    | _ => cases kind
  missed {cs} other := by
    -- Where all parts match there is a reference, so some part fails.
    rcases Leaves.text_cases "\x7b\x7b" cs with ⟨inner, rfl, opened⟩ | failed
    · rcases identifier_cases inner with ⟨scope, behind, rfl, isScope, ends⟩ | failed
      · have scopeTaken := Leaves.rule .scope (identifier_leaves isScope ends)
        rcases Leaves.text_cases ":" behind with ⟨after, rfl, colon⟩ | failed
        · rcases identifier_cases after with ⟨name, behind, rfl, isName, ends⟩ | failed
          · have taken := identifier_leaves isName ends
            rcases Leaves.text_cases "\x7d\x7d" behind with ⟨rest, rfl, closed⟩ | failed
            · exact absurd rfl (other _ _ _ (Lexeme.split?_ref isScope isName rest))
            · refine (Leaves.rule .reference (opened.seq (scopeTaken.seq (colon.seq (taken.seq failed))))).mono ?_
              simp only [List.length_append]
              omega
          · refine (Leaves.rule .reference (opened.seq (scopeTaken.seq (colon.seq failed.seq_none)))).mono ?_
            simp only [List.length_append]
            omega
        · refine (Leaves.rule .reference (opened.seq (scopeTaken.seq failed.seq_none))).mono ?_
          simp only [List.length_append]
          omega
      · exact (Leaves.rule .reference (opened.seq (Leaves.rule .scope failed).seq_none)).mono (by omega)
    · exact (Leaves.rule .reference failed.seq_none).mono (by omega)

/-- Of several texts the first one that stands there is taken. -/
theorem texts_found {before after : List String} {s : String} {rest : List Char}
    (other : ∀ t ∈ before, ¬ t.toList <+: s.toList ++ rest) :
    (Pattern.firstOf ((before ++ s :: after).map .text)).Leaves (before.length + 2) (s.toList ++ rest)
      (some rest) := by
  induction before with
  | nil =>
    cases after with
    | nil => exact Leaves.text.mono (by omega)
    | cons t after => exact Leaves.text.either
  | cons t before ih =>
    obtain ⟨here, others⟩ := List.forall_mem_cons.mp other
    have next : ∃ p ps, (before ++ s :: after).map Pattern.text = p :: ps := by cases before <;> exact ⟨_, _, rfl⟩
    obtain ⟨p, ps, same⟩ := next
    have behind := ih others
    rw [List.cons_append, List.map_cons, same] at *
    refine ((Leaves.text_none here).either_none behind).mono ?_
    rw [List.length_cons]
    omega

theorem texts_missed {s : String} {more : List String} {cs : List Char}
    (other : ∀ t ∈ s :: more, ¬ t.toList <+: cs) :
    (Pattern.firstOf ((s :: more).map .text)).Leaves (more.length + 1) cs none := by
  induction more generalizing s with
  | nil => exact Leaves.text_none (other s List.mem_cons_self)
  | cons t more ih =>
    obtain ⟨here, others⟩ := List.forall_mem_cons.mp other
    refine ((Leaves.text_none here).either_none (ih others)).mono ?_
    rw [List.length_cons]
    omega

/-- Of texts that stand apart at most one can be taken. -/
theorem texts_apart {texts : List String} {s : String}
    (apart : texts.Pairwise fun a b => ∀ rest, ¬ a.toList <+: b.toList ++ rest) (listed : s ∈ texts)
    (rest : List Char) :
    (Pattern.firstOf (texts.map .text)).Leaves (texts.length + 1) (s.toList ++ rest) (some rest) := by
  obtain ⟨before, after, rfl⟩ := List.append_of_mem listed
  have other : ∀ t ∈ before, ¬ t.toList <+: s.toList ++ rest := fun t earlier =>
    (List.pairwise_append.mp apart).2.2 t earlier s List.mem_cons_self rest
  refine (texts_found other).mono ?_
  rw [List.length_append, List.length_cons]
  omega

/-- One of the words that the language writes out, up to its end. -/
theorem keyword_recognizes {r : Rule} {name : String} {more : List String}
    (body : r.body = .seq (.firstOf ((name :: more).map .text)) Rule.wordEnd)
    (words : ∀ word ∈ name :: more, IsWord word) (few : more.length ≤ 20)
    (apart : (name :: more).Pairwise fun a b => ∀ rest, ¬ a.toList <+: b.toList ++ rest) :
    (Pattern.rule r).Recognizes fun lexeme => (name :: more).any (lexeme = .word ·) where
  found {lexeme taken rest} kind spelled ends := by
    obtain ⟨word, listed, same⟩ := List.any_eq_true.mp kind
    obtain rfl := of_decide_eq_true same
    cases spelled with
    | word =>
      have leaves := (texts_apart apart listed rest).seq (Leaves.wordEnd ends)
      rw [← body, List.length_cons] at leaves
      exact (Leaves.rule r leaves).mono (by omega)
    | mark isMark => cases isMark
  missed {cs} other := by
    by_cases part : ∃ word ∈ name :: more, word.toList <+: cs
    · obtain ⟨word, listed, rest, rfl⟩ := part
      have goesOn : ¬ (Lexeme.word word).Ends rest := fun ends =>
        other _ _ _ (Lexeme.split?_word (words word listed) ends)
          (List.any_eq_true.mpr ⟨word, listed, decide_eq_true rfl⟩)
      have leaves := (texts_apart apart listed rest).seq (Leaves.wordEnd_none goesOn)
      rw [← body, List.length_cons] at leaves
      exact (Leaves.rule r leaves).mono (by omega)
    · have failed := texts_missed fun word listed prefixed => part ⟨word, listed, prefixed⟩
      have leaves := failed.seq_none (q := Rule.wordEnd)
      rw [← body] at leaves
      exact (Leaves.rule r leaves).mono (by omega)

theorem nullLiteral_recognizes : (Pattern.rule .nullLiteral).Recognizes (["null"].any fun name => · = .word name) :=
  keyword_recognizes rfl (List.forall_mem_singleton.mpr ⟨'n', "ull".toList, rfl, rfl, List.all_eq_true.mp rfl⟩)
    (Nat.zero_le 20) (List.pairwise_singleton _ _)

theorem undefinedLiteral_recognizes :
    (Pattern.rule .undefinedLiteral).Recognizes (["undefined"].any fun name => · = .word name) :=
  keyword_recognizes rfl (List.forall_mem_singleton.mpr ⟨'u', "ndefined".toList, rfl, rfl, List.all_eq_true.mp rfl⟩)
    (Nat.zero_le 20) (List.pairwise_singleton _ _)

theorem boolLiteral_recognizes :
    (Pattern.rule .boolLiteral).Recognizes (["true", "false"].any fun name => · = .word name) := by
  have isTrue : IsWord "true" := ⟨'t', "rue".toList, rfl, rfl, List.all_eq_true.mp rfl⟩
  have isFalse : IsWord "false" := ⟨'f', "alse".toList, rfl, rfl, List.all_eq_true.mp rfl⟩
  refine keyword_recognizes rfl (List.forall_mem_cons.mpr ⟨isTrue, List.forall_mem_singleton.mpr isFalse⟩)
    (by decide) (List.pairwise_pair.mpr fun rest => ?_)
  rintro ⟨behind, same⟩
  cases same

/-- The infix operators, in the order in which they are tried. -/
def Rule.operators : List Operator :=
  [.coalesce, .or, .and, .equal, .different, .atMost, .atLeast, .shiftLeft, .shiftRight, .less, .greater, .plus,
    .minus, .times, .divide, .remainder, .bitAnd, .bitXor, .bitOr]

theorem Rule.mem_operators {op : Operator} : op ∈ operators ↔ op.arity = 2 := by
  cases op <;> decide

/-- Behind a whole operator there is no character that would make it longer. -/
theorem not_prefix_of_grows {op : Operator} {d : Char} (grows : (Lexeme.operator op).grows d) (rest : List Char)
    (ends : (Lexeme.operator op).Ends rest) : ¬ [d] <+: rest := by
  rintro ⟨behind, rfl⟩
  exact ends d rfl grows

/-- An operator that is tried earlier is not what a whole operator begins with. -/
theorem Rule.operators_apart : operators.Pairwise fun a b =>
    ∀ rest, (Lexeme.operator b).Ends rest → ¬ a.token.toList <+: b.token.toList ++ rest := by
  simp only [operators, List.pairwise_cons, List.forall_mem_cons, Operator.token, String.reduceToList,
    List.cons_append, List.nil_append, List.cons_prefix_cons, Char.reduceEq, false_and, and_false,
    not_false_eq_true, implies_true, and_self, true_and, List.not_mem_nil, false_imp_iff, and_true,
    List.Pairwise.nil]
  exact ⟨not_prefix_of_grows rfl, not_prefix_of_grows rfl, not_prefix_of_grows rfl, not_prefix_of_grows rfl,
    not_prefix_of_grows rfl, not_prefix_of_grows rfl⟩

/-- Where the token of an operator stands, an operator is split off, be it a longer one. -/
theorem Lexeme.split?_token {op : Operator} (infixed : op.arity = 2) (rest : List Char) :
    ∃ longer taken behind, split? (op.token.toList ++ rest) = some (.operator longer, taken, behind) := by
  by_cases ends : (Lexeme.operator op).Ends rest
  · exact ⟨op, _, rest, split?_of_letters (.mark infixed) ends⟩
  · rcases rest with _ | ⟨d, rest⟩
    · refine absurd (fun _ first => ?_) ends
      cases first
    · have grows : (Lexeme.operator op).grows d := by
        by_contra stays
        refine ends fun c first => ?_
        cases first
        exact stays
      cases op with
      | bitOr | bitAnd =>
        obtain rfl := of_decide_eq_true grows
        exact ⟨_, _, _, rfl⟩
      | less | greater =>
        rcases (Bool.or_eq_true _ _).mp grows with equal | again
        · obtain rfl := of_decide_eq_true equal
          exact ⟨_, _, _, rfl⟩
        · obtain rfl := of_decide_eq_true again
          exact ⟨_, _, _, rfl⟩
      | _ => cases grows

theorem binaryOperator_leaves {op : Operator} {rest : List Char} (infixed : op.arity = 2)
    (ends : (Lexeme.operator op).Ends rest) :
    (Pattern.rule .binaryOperator).Leaves 22 (op.token.toList ++ rest) (some rest) := by
  obtain ⟨before, after, split⟩ := List.append_of_mem (Rule.mem_operators.mpr infixed)
  have apart := Rule.operators_apart
  rw [split] at apart
  have other : ∀ t ∈ before.map (·.token), ¬ t.toList <+: op.token.toList ++ rest := by
    refine List.forall_mem_map.mpr fun earlier listed => ?_
    exact (List.pairwise_append.mp apart).2.2 earlier listed op List.mem_cons_self rest ends
  have body : Rule.binaryOperator.body =
      .firstOf ((before.map (·.token) ++ op.token :: after.map (·.token)).map .text) := by
    rw [← List.map_cons, ← List.map_append, ← split]
    rfl
  have few : before.length ≤ 19 := by
    have counted := congrArg List.length split
    rw [List.length_append] at counted
    exact (Nat.le_add_right _ _).trans counted.ge
  refine (Leaves.rule .binaryOperator ?_).mono (n := before.length + 3) (by omega)
  rw [body, ← List.length_map]
  exact texts_found other

theorem binaryOperator_recognizes : (Pattern.rule .binaryOperator).Recognizes (· matches .operator _) where
  found {lexeme taken rest} kind spelled ends := by
    cases lexeme with
    | operator op =>
      cases spelled with
      | mark infixed => exact (binaryOperator_leaves infixed ends).mono (by omega)
    | _ => cases kind
  missed {cs} other := by
    have missing : ∀ t ∈ Rule.operators.map (·.token), ¬ t.toList <+: cs := by
      refine List.forall_mem_map.mpr fun op listed => ?_
      rintro ⟨rest, rfl⟩
      obtain ⟨longer, taken, behind, split⟩ := Lexeme.split?_token (Rule.mem_operators.mp listed) rest
      exact other _ _ _ split rfl
    have enough : 20 ≤ cs.length + 30 := by omega
    exact (Leaves.rule .binaryOperator (texts_missed missing)).mono enough

end LazyExpr
