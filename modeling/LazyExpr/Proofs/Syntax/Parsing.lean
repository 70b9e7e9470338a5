import LazyExpr.Proofs.Induction
import LazyExpr.Proofs.Syntax.Reading

namespace LazyExpr

open Lexeme (access opening separated)
open Grammar (nextStart)

namespace Expr

theorem leftmost_withoutSpans (e : Expr) : e.withoutSpans.leftmost = e.leftmost.withoutSpans := by
  induction e with
  | field _ _ _ _ ih | index _ _ _ _ ih | unary _ _ _ ih | coalesce _ _ _ ih | binary _ _ _ _ ih
  | choose _ _ _ _ ih => exact ih
  | _ => rfl

end Expr

namespace Lexeme.Unindexed

variable {ls : List Lexeme} {e : Expr}

theorem front {more : List Lexeme} (unindexed : Unindexed (ls ++ more) e) : Unindexed ls e := by
  intro bracket
  refine unindexed ?_
  rw [List.head?_append, bracket]
  rfl

theorem withoutSpans (unindexed : Unindexed ls e) : Unindexed ls e.withoutSpans := by
  intro bracket s item leftmost
  have apart := unindexed bracket
  rw [Expr.leftmost_withoutSpans] at leftmost
  revert leftmost apart
  cases e.leftmost with
  | list s' items =>
    rcases items with _ | ⟨first, _ | ⟨second, items⟩⟩
    · rintro ⟨⟩
    · exact fun _ apart => apart s' first rfl
    · rintro ⟨⟩
  | _ => rintro ⟨⟩

end Lexeme.Unindexed

/-- The sign that a lexeme is in front of an operand. -/
def Lexeme.sign? : Lexeme → Option Operator
  | bang => some .not
  | operator .minus => some .negate
  | _ => none

/-- An item with the tokens from which it was taken and those that it left. -/
structure Item where
  tokens : List Token
  expr : Expr
  rest : List Token

/-- Further items, each behind a comma, up to a closing mark with this span. -/
inductive Row (close : Lexeme) : List Token → List Item → Span → List Token → Prop
  | done (last : Span) (rest : List Token) : Row close (⟨close, last⟩ :: rest) [] last rest
  | more {tokens after rest : List Token} {e : Expr} {items : List Item} {last : Span} (s : Span) :
      Row close after items last rest → Row close (⟨.comma, s⟩ :: tokens) (⟨tokens, e, after⟩ :: items) last rest

/-- The items between two marks, behind the opening one. There may be none. -/
inductive Enclosed (close : Lexeme) : List Token → List Item → Span → List Token → Prop
  | none (last : Span) (rest : List Token) : Enclosed close (⟨close, last⟩ :: rest) [] last rest
  | some {tokens after rest : List Token} {e : Expr} {items : List Item} {last : Span} :
      Row close after items last rest → Enclosed close tokens (⟨tokens, e, after⟩ :: items) last rest

/-- The rules of the grammar on tokens of a text of `stop` bytes: an expression of that rank, spans included, is
taken from the front, and the last tokens are left. -/
inductive Parse (stop : Nat) : Rank → List Token → Expr → List Token → Prop
  | keyword {name : String} {s : Span} {e : Expr} {rest : List Token} : Grammar.keyword? s name = some e →
      Parse stop .primary (⟨.word name, s⟩ :: rest) e rest
  | numeral (digits : List Char) (s : Span) (rest : List Token) :
      Parse stop .primary (⟨.numeral digits, s⟩ :: rest) (Grammar.numeral s digits) rest
  | quoted (content : String) (s : Span) (rest : List Token) :
      Parse stop .primary (⟨.quoted content, s⟩ :: rest) (.literal s (.string content)) rest
  | ref (scope name : String) (s : Span) (rest : List Token) :
      Parse stop .primary (⟨.ref scope name, s⟩ :: rest) (Grammar.reference s scope name) rest
  | list {tokens rest : List Token} {items : List Item} {last : Span} (s : Span) :
      Enclosed .closeBracket tokens items last rest →
      (∀ item ∈ items, Parse stop .whole item.tokens item.expr item.rest) →
      Parse stop .primary (⟨.openBracket, s⟩ :: tokens) (.list (s.merge last) (items.map (·.expr))) rest
  | call {name : String} {tokens rest : List Token} {items : List Item} {s last : Span} (s' : Span) :
      Grammar.keyword? s name = none → Enclosed .closeParen tokens items last rest →
      (∀ item ∈ items, Parse stop .whole item.tokens item.expr item.rest) →
      Parse stop .primary (⟨.word name, s⟩ :: ⟨.openParen, s'⟩ :: tokens)
        (.call (s.merge last) name (items.map (·.expr))) rest
  | parens {tokens rest : List Token} {e : Expr} (s s' : Span) :
      Parse stop .whole tokens e (⟨.closeParen, s'⟩ :: rest) →
      Parse stop .primary (⟨.openParen, s⟩ :: tokens) e rest
  | ofPrimary {tokens rest : List Token} {e : Expr} :
      Parse stop .primary tokens e rest → Parse stop .member tokens e rest
  | field {tokens rest : List Token} {base : Expr} {name : String} {safe : Bool} (s s' : Span) :
      Parse stop .member tokens base (⟨access safe, s⟩ :: ⟨.word name, s'⟩ :: rest) →
      Parse stop .member tokens (.field (base.span.merge s') base name safe) rest
  | index {tokens opens inner rest : List Token} {base key : Expr} {safe : Bool} (s : Span) :
      opens.map (·.lexeme) = opening safe → Parse stop .member tokens base (opens ++ inner) →
      Parse stop .whole inner key (⟨.closeBracket, s⟩ :: rest) →
      Parse stop .member tokens (.index (base.span.merge s) base key safe) rest
  | assert {tokens rest : List Token} {e : Expr} (s : Span) : Parse stop .member tokens e (⟨.bang, s⟩ :: rest) →
      Parse stop .member tokens (.unary (e.span.merge s) .assertPresent e) rest
  | ofMember {tokens rest : List Token} {e : Expr} :
      Parse stop .member tokens e rest → Parse stop .operand tokens e rest
  | sign {t : Token} {op : Operator} {tokens rest : List Token} {e : Expr} : t.lexeme.sign? = some op →
      Parse stop .operand tokens e rest → Parse stop .operand (t :: tokens) (.unary (t.span.merge e.span) op e) rest
  | ofOperand {tokens rest : List Token} {e : Expr} (least : Level) :
      Parse stop .operand tokens e rest → Parse stop (.chain least) tokens e rest
  | binary {tokens mid rest : List Token} {left right : Expr} {op : Operator} {least : Level} (s : Span) :
      least ≤ op.level → Parse stop (.chain op.leftLevel) tokens left (⟨.operator op, s⟩ :: mid) →
      Parse stop (.chain op.rightLevel) mid right rest → Parse stop (.chain least) tokens (.join op left right) rest
  | ofChain {tokens rest : List Token} {e : Expr} :
      Parse stop (.chain .lowest) tokens e rest → Parse stop .whole tokens e rest
  | choose {tokens inner after rest : List Token} {condition yes no : Expr} {glued : Bool} (s s' : Span) :
      Parse stop (.chain .lowest) tokens condition (⟨.question glued, s⟩ :: inner) →
      Parse stop .whole inner yes (⟨.colon, s'⟩ :: after) → Parse stop .whole after no rest →
      (glued = true → Lexeme.Unindexed (inner.map (·.lexeme)) yes) →
      Parse stop .whole tokens (.choose ⟨nextStart stop tokens, nextStart stop rest⟩ condition yes no) rest

/-- The tokens that are taken from the front are a phrase of the expression. -/
def Takes (rank : Rank) (tokens : List Token) (e : Expr) (rest : List Token) : Prop :=
  ∃ taken, tokens = taken ++ rest ∧ Phrase rank (taken.map (·.lexeme)) e.withoutSpans

namespace Takes

variable {rank : Rank} {tokens rest : List Token} {e : Expr}

theorem suffix (takes : Takes rank tokens e rest) : rest <:+ tokens := by
  obtain ⟨taken, rfl, _⟩ := takes
  exact List.suffix_append taken rest

theorem shorter (takes : Takes rank tokens e rest) : rest.length < tokens.length := by
  obtain ⟨taken, rfl, phrase⟩ := takes
  obtain ⟨first, behind, same, _⟩ := phrase.opens
  have count : taken.length = behind.length + 1 := by rw [← List.length_map, same, List.length_cons]
  rw [List.length_append, count]
  omega

theorem phrase {taken : List Token} (takes : Takes rank (taken ++ rest) e rest) :
    Phrase rank (taken.map (·.lexeme)) e.withoutSpans := by
  obtain ⟨taken', same, phrase⟩ := takes
  rwa [List.append_cancel_right same]

end Takes

/-- Items behind commas, taken as phrases. -/
theorem Row.takes {close : Lexeme} {tokens rest : List Token} {items : List Item} {last : Span}
    (row : Row close tokens items last rest) (sound : ∀ t ∈ tokens, t.Sound)
    (each : ∀ item ∈ items, (∀ t ∈ item.tokens, t.Sound) → Takes .whole item.tokens item.expr item.rest) :
    ∃ (taken : List Token) (parts : List (List Lexeme × Expr)), tokens = taken ++ ⟨close, last⟩ :: rest ∧
      taken.map (·.lexeme) = (parts.map (·.1)).flatMap (.comma :: ·) ∧
      parts.map (·.2) = (items.map (·.expr)).map Expr.withoutSpans ∧
        ∀ part ∈ parts, Phrase .whole part.1 part.2 := by
  induction row with
  | done => exact ⟨[], [], rfl, rfl, rfl, List.forall_mem_nil _⟩
  | @more tokens after rest e items last s _ ih =>
    obtain ⟨here, others⟩ := List.forall_mem_cons.mp each
    have inner := (List.forall_mem_cons.mp sound).2
    have takes : Takes .whole tokens e after := here inner
    have behind : ∀ t ∈ after, t.Sound := fun t member => inner t (takes.suffix.mem member)
    obtain ⟨taken, rfl, phrase⟩ := takes
    obtain ⟨more, parts, rfl, lexemes, exprs, phrases⟩ := ih behind others
    refine ⟨⟨.comma, s⟩ :: (taken ++ more), (taken.map (·.lexeme), e.withoutSpans) :: parts, ?_, ?_, ?_,
      List.forall_mem_cons.mpr ⟨phrase, phrases⟩⟩
    · rw [List.cons_append, List.append_assoc]
    · rw [List.map_cons, List.map_append, lexemes]
      rfl
    · rw [List.map_cons, exprs]
      rfl

theorem Enclosed.takes {close : Lexeme} {tokens rest : List Token} {items : List Item} {last : Span}
    (enclosed : Enclosed close tokens items last rest) (sound : ∀ t ∈ tokens, t.Sound)
    (each : ∀ item ∈ items, (∀ t ∈ item.tokens, t.Sound) → Takes .whole item.tokens item.expr item.rest) :
    ∃ (taken : List Token) (parts : List (List Lexeme × Expr)), tokens = taken ++ ⟨close, last⟩ :: rest ∧
      taken.map (·.lexeme) = separated (parts.map (·.1)) ∧
      parts.map (·.2) = (items.map (·.expr)).map Expr.withoutSpans ∧
        ∀ part ∈ parts, Phrase .whole part.1 part.2 := by
  cases enclosed with
  | none => exact ⟨[], [], rfl, rfl, rfl, List.forall_mem_nil _⟩
  | @some tokens after rest e items last row =>
    obtain ⟨here, others⟩ := List.forall_mem_cons.mp each
    have takes : Takes .whole tokens e after := here sound
    have behind : ∀ t ∈ after, t.Sound := fun t member => sound t (takes.suffix.mem member)
    obtain ⟨taken, rfl, phrase⟩ := takes
    obtain ⟨more, parts, rfl, lexemes, exprs, phrases⟩ := row.takes behind others
    refine ⟨taken ++ more, (taken.map (·.lexeme), e.withoutSpans) :: parts, ?_, ?_, ?_,
      List.forall_mem_cons.mpr ⟨phrase, phrases⟩⟩
    · rw [List.append_assoc]
    · rw [List.map_append, lexemes]
      rfl
    · rw [List.map_cons, exprs]
      rfl

namespace Grammar

theorem keyword?_phrase {s : Span} {name : String} {e : Expr} (found : keyword? s name = some e) :
    Phrase .primary [.word name] e.withoutSpans := by
  obtain ⟨rfl, rfl⟩ | ⟨rfl, rfl⟩ | ⟨b, rfl, rfl⟩ := keyword?_cases found
  · exact .null
  · exact .undefined
  · exact .bool b

theorem numeral_phrase {s : Span} {digits : List Char} (sound : Token.Sound ⟨.numeral digits, s⟩) :
    Phrase .primary [.numeral digits] (numeral s digits).withoutSpans := by
  obtain ⟨v, value, same⟩ := numeral_of_sound sound
  rw [same]
  exact .numeral value

theorem reference_phrase {s : Span} {scope name : String} (sound : Token.Sound ⟨.ref scope name, s⟩) :
    Phrase .primary [.ref scope name] (reference s scope name).withoutSpans := by
  obtain ⟨found, rfl, same⟩ := reference_of_sound sound
  rw [same]
  exact .ref found name

end Grammar

/-- What is taken from sound tokens is a phrase. -/
theorem Parse.takes {stop : Nat} {rank : Rank} {tokens rest : List Token} {e : Expr}
    (parse : Parse stop rank tokens e rest) (sound : ∀ t ∈ tokens, t.Sound) : Takes rank tokens e rest := by
  induction parse with
  | keyword found => exact ⟨[_], rfl, Grammar.keyword?_phrase found⟩
  | numeral => exact ⟨[_], rfl, Grammar.numeral_phrase (List.forall_mem_cons.mp sound).1⟩
  | quoted content => exact ⟨[_], rfl, .quoted content⟩
  | ref => exact ⟨[_], rfl, Grammar.reference_phrase (List.forall_mem_cons.mp sound).1⟩
  | @list tokens rest items last s enclosed _ ih =>
    obtain ⟨taken, parts, rfl, lexemes, exprs, phrases⟩ := enclosed.takes (List.forall_mem_cons.mp sound).2 ih
    refine ⟨⟨.openBracket, s⟩ :: (taken ++ [⟨.closeBracket, last⟩]), by simp, ?_⟩
    show Phrase _ _ (.list .synthetic (Expr.listWithoutSpans _))
    rw [Expr.listWithoutSpans_eq_map, ← exprs]
    simpa [lexemes] using Phrase.list phrases
  | @call name tokens rest items s last s' free enclosed _ ih =>
    obtain ⟨taken, parts, rfl, lexemes, exprs, phrases⟩ :=
      enclosed.takes (List.forall_mem_cons.mp (List.forall_mem_cons.mp sound).2).2 ih
    refine ⟨⟨.word name, s⟩ :: ⟨.openParen, s'⟩ :: (taken ++ [⟨.closeParen, last⟩]), by simp, ?_⟩
    show Phrase _ _ (.call .synthetic name (Expr.listWithoutSpans _))
    rw [Expr.listWithoutSpans_eq_map, ← exprs]
    simpa [lexemes] using Phrase.call (Grammar.keyword?_eq_none .synthetic free) phrases
  | @parens tokens rest e s s' _ ih =>
    obtain ⟨taken, rfl, phrase⟩ := ih (List.forall_mem_cons.mp sound).2
    refine ⟨⟨.openParen, s⟩ :: (taken ++ [⟨.closeParen, s'⟩]), by simp, ?_⟩
    simpa using Phrase.parens phrase
  | ofPrimary _ ih =>
    obtain ⟨taken, same, phrase⟩ := ih sound
    exact ⟨taken, same, .ofPrimary phrase⟩
  | @field tokens rest base name safe s s' _ ih =>
    obtain ⟨taken, rfl, phrase⟩ := ih sound
    refine ⟨taken ++ [⟨access safe, s⟩, ⟨.word name, s'⟩], by simp, ?_⟩
    simpa [Expr.withoutSpans] using Phrase.field name safe phrase
  | @index tokens opens inner rest base key safe s opened _ _ ih ihKey =>
    obtain ⟨taken, rfl, phrase⟩ := ih sound
    obtain ⟨takenKey, rfl, phraseKey⟩ := ihKey fun t member =>
      sound t (List.mem_append_right _ (List.mem_append_right _ member))
    refine ⟨taken ++ opens ++ takenKey ++ [⟨.closeBracket, s⟩], by simp, ?_⟩
    simpa [Expr.withoutSpans, opened] using Phrase.index safe phrase phraseKey
  | @assert tokens rest e s _ ih =>
    obtain ⟨taken, rfl, phrase⟩ := ih sound
    refine ⟨taken ++ [⟨.bang, s⟩], by simp, ?_⟩
    simpa [Expr.withoutSpans] using Phrase.assert phrase
  | ofMember _ ih =>
    obtain ⟨taken, same, phrase⟩ := ih sound
    exact ⟨taken, same, .ofMember phrase⟩
  | @sign t op tokens rest e signed _ ih =>
    obtain ⟨taken, rfl, phrase⟩ := ih (List.forall_mem_cons.mp sound).2
    refine ⟨t :: taken, rfl, ?_⟩
    obtain ⟨lexeme, s⟩ := t
    cases lexeme with
    | bang =>
      cases signed
      exact .not phrase
    | operator sign =>
      cases sign <;> cases signed
      exact .negate phrase
    | _ => cases signed
  | ofOperand least _ ih =>
    obtain ⟨taken, same, phrase⟩ := ih sound
    exact ⟨taken, same, .ofOperand least phrase⟩
  | @binary tokens mid rest left right op least s above _ _ ih ihRight =>
    obtain ⟨taken, rfl, phrase⟩ := ih sound
    obtain ⟨here, behind⟩ := List.forall_mem_cons.mp (List.forall_mem_append.mp sound).2
    have infixed : op.arity = 2 := here.1
    obtain ⟨takenRight, rfl, phraseRight⟩ := ihRight behind
    rw [Operator.leftLevel_of_binary infixed] at phrase
    refine ⟨taken ++ ⟨.operator op, s⟩ :: takenRight, by simp, ?_⟩
    rw [Expr.join_withoutSpans, List.map_append, List.map_cons]
    exact .binary infixed above phrase phraseRight
  | ofChain _ ih =>
    obtain ⟨taken, same, phrase⟩ := ih sound
    exact ⟨taken, same, .ofChain phrase⟩
  | @choose tokens inner after rest condition yes no glued s s' _ _ _ unindexed ih ihYes ihNo =>
    obtain ⟨taken, rfl, phrase⟩ := ih sound
    have behind := (List.forall_mem_cons.mp (List.forall_mem_append.mp sound).2).2
    obtain ⟨takenYes, rfl, phraseYes⟩ := ihYes behind
    obtain ⟨takenNo, rfl, phraseNo⟩ := ihNo (List.forall_mem_cons.mp (List.forall_mem_append.mp behind).2).2
    rw [List.map_append] at unindexed
    have apart := fun same => (unindexed same).front.withoutSpans
    refine ⟨taken ++ ⟨.question glued, s⟩ :: (takenYes ++ ⟨.colon, s'⟩ :: takenNo), by simp, ?_⟩
    simpa [Expr.withoutSpans] using Phrase.choose phrase phraseYes phraseNo apart

end LazyExpr
