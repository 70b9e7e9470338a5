import LazyExpr.Proofs.Syntax.Balance
import LazyExpr.Proofs.Syntax.Nesting

namespace LazyExpr

open Lexeme (access opening Balanced)
open Grammar (nextStart)

/-- The last of the tokens ends at that place or before it, and stands for itself whatever is behind it. -/
def EndsBy (tokens : List Token) (place : Nat) : Prop :=
  ∃ before last, tokens = before ++ [last] ∧ last.lexeme ≠ .question true ∧ last.span.stop ≤ place

namespace EndsBy

variable {t : Token} {tokens : List Token} {place place' : Nat}

theorem behind (ends : EndsBy tokens place) (more : List Token) : EndsBy (more ++ tokens) place := by
  obtain ⟨before, last, rfl, other, stop⟩ := ends
  exact ⟨more ++ before, last, (List.append_assoc _ _ _).symm, other, stop⟩

theorem mono (ends : EndsBy tokens place) (le : place ≤ place') : EndsBy tokens place' := by
  obtain ⟨before, last, rfl, other, stop⟩ := ends
  exact ⟨before, last, rfl, other, stop.trans le⟩

theorem single (other : t.lexeme ≠ .question true) (stop : t.span.stop ≤ place) : EndsBy [t] place :=
  ⟨[], t, rfl, other, stop⟩

theorem ne_nil (ends : EndsBy tokens place) : tokens ≠ [] := by
  obtain ⟨before, last, rfl, _⟩ := ends
  exact List.append_ne_nil_of_right_ne_nil _ (List.cons_ne_nil _ _)

theorem tail (ends : EndsBy (t :: tokens) place) (more : tokens ≠ []) : EndsBy tokens place := by
  obtain ⟨before, last, same, other, stop⟩ := ends
  rcases before with _ | ⟨first, before⟩
  · exact absurd (List.cons.inj same).2 more
  · exact ⟨before, last, (List.cons.inj same).2, other, stop⟩

theorem of_single (ends : EndsBy [t] place) : t.lexeme ≠ .question true ∧ t.span.stop ≤ place := by
  obtain ⟨before, last, same, other, stop⟩ := ends
  have only := congrArg List.getLast? same
  rw [List.getLast?_append, List.getLast?_singleton, List.getLast?_singleton] at only
  cases only
  exact ⟨other, stop⟩

end EndsBy

theorem Grammar.nextStart_append {tokens : List Token} (some : tokens ≠ []) (stop stop' : Nat) (rest : List Token) :
    nextStart stop (tokens ++ rest) = nextStart stop' tokens := by
  cases tokens with
  | nil => exact absurd rfl some
  | cons => rfl

/-- The tokens that the span of an expression holds, between parentheses that are left out of it. The span begins
where they do. If no parenthesis is missing among them they are the expression. -/
structure Framed (stop : Nat) (opens core closes rest : List Token) (e : Expr) : Prop where
  opening : ∀ lexeme ∈ opens.map (·.lexeme), lexeme = .openParen
  closing : ∀ lexeme ∈ closes.map (·.lexeme), lexeme = .closeParen
  start : e.span.start = nextStart stop core
  ends : EndsBy core e.span.stop
  below : e.span.stop ≤ nextStart stop (closes ++ rest)
  phrase : Balanced (core.map (·.lexeme)) → Phrase .whole (core.map (·.lexeme)) e.withoutSpans

namespace Framed

variable {stop : Nat} {rank rank' rank'' : Rank} {opens core closes opens' core' closes' suffix rest : List Token}
  {base left right e : Expr}

/-- An expression that begins and ends with tokens of its own. -/
theorem whole (takes : Takes rank (core ++ rest) e rest) (start : e.span.start = nextStart stop core)
    (ends : EndsBy core e.span.stop) (below : e.span.stop ≤ nextStart stop rest) :
    Framed stop [] core [] rest e where
  opening := List.forall_mem_nil _
  closing := List.forall_mem_nil _
  start := start
  ends := ends
  below := below
  phrase _ := takes.phrase.whole

theorem parens {s' : Span} (framed : Framed stop opens core closes (⟨.closeParen, s'⟩ :: rest) e) (s : Span) :
    Framed stop (⟨.openParen, s⟩ :: opens) core (closes ++ [⟨.closeParen, s'⟩]) rest e where
  opening := List.forall_mem_cons.mpr ⟨rfl, framed.opening⟩
  closing := by
    rw [List.map_append]
    exact List.forall_mem_append.mpr ⟨framed.closing, List.forall_mem_singleton.mpr rfl⟩
  start := framed.start
  ends := framed.ends
  below := by
    rw [List.append_assoc]
    exact framed.below
  phrase := framed.phrase

/-- With something behind it, the parentheses that were closed in front of that are held. -/
theorem suffixed (framed : Framed stop opens core closes (suffix ++ rest) base)
    (inner : Takes rank (opens ++ core ++ closes ++ (suffix ++ rest)) base (suffix ++ rest))
    (outer : Takes rank' (opens ++ (core ++ closes ++ suffix) ++ rest) e rest)
    (start : e.span.start = base.span.start) (ends : EndsBy suffix e.span.stop)
    (below : e.span.stop ≤ nextStart stop rest) : Framed stop opens (core ++ closes ++ suffix) [] rest e where
  opening := framed.opening
  closing := List.forall_mem_nil _
  start := by
    rw [start, framed.start, List.append_assoc, Grammar.nextStart_append framed.ends.ne_nil]
  ends := ends.behind _
  below := below
  phrase := by
    intro balanced
    have closed := inner.phrase.balanced
    rw [List.append_assoc, List.map_append] at closed
    rw [List.map_append] at balanced
    obtain rfl := List.map_eq_nil_iff.mp (Balanced.opens_eq_nil framed.opening closed balanced)
    exact outer.phrase.whole

/-- With a sign in front of it, those that are opened behind the sign are held. -/
theorem signed {t : Token} (plain : Balanced [t.lexeme]) (framed : Framed stop opens core closes rest base)
    (inner : Takes rank (opens ++ core ++ closes ++ rest) base rest)
    (outer : Takes rank' (t :: (opens ++ core) ++ closes ++ rest) e rest) (start : e.span.start = t.span.start)
    (same : e.span.stop = base.span.stop) : Framed stop [] (t :: (opens ++ core)) closes rest e where
  opening := List.forall_mem_nil _
  closing := framed.closing
  start := start
  ends := same ▸ framed.ends.behind (t :: opens)
  below := same ▸ framed.below
  phrase := by
    intro balanced
    have closed := inner.phrase.balanced
    rw [List.map_append] at closed
    have held := @Balanced.behind [t.lexeme] _ balanced plain
    obtain rfl := List.map_eq_nil_iff.mp (Balanced.closes_eq_nil framed.closing closed held)
    have phrase := outer.phrase.whole
    rwa [List.append_nil] at phrase

/-- Two operands: what is closed behind the first one and opened in front of the second one is held. -/
theorem infixed {t : Token} (plain : Balanced [t.lexeme])
    (first : Framed stop opens core closes (t :: (opens' ++ core' ++ closes' ++ rest)) left)
    (second : Framed stop opens' core' closes' rest right)
    (innerLeft : Takes rank (opens ++ core ++ closes ++ (t :: (opens' ++ core' ++ closes' ++ rest))) left
      (t :: (opens' ++ core' ++ closes' ++ rest)))
    (innerRight : Takes rank' (opens' ++ core' ++ closes' ++ rest) right rest)
    (outer : Takes rank'' (opens ++ (core ++ closes ++ t :: (opens' ++ core')) ++ closes' ++ rest) e rest)
    (start : e.span.start = left.span.start) (same : e.span.stop = right.span.stop) :
    Framed stop opens (core ++ closes ++ t :: (opens' ++ core')) closes' rest e where
  opening := first.opening
  closing := second.closing
  start := by
    rw [start, first.start, List.append_assoc, Grammar.nextStart_append first.ends.ne_nil]
  ends := by
    rw [same, ← List.cons_append, ← List.append_assoc]
    exact second.ends.behind _
  below := same ▸ second.below
  phrase := by
    intro balanced
    have closedLeft := innerLeft.phrase.balanced
    have closedRight := innerRight.phrase.balanced
    rw [List.append_assoc, List.map_append] at closedLeft
    rw [List.map_append] at closedRight balanced
    obtain rfl := List.map_eq_nil_iff.mp (Balanced.opens_eq_nil first.opening closedLeft balanced)
    have behind := Balanced.behind balanced closedLeft
    have held := @Balanced.behind [t.lexeme] _ behind plain
    obtain rfl := List.map_eq_nil_iff.mp (Balanced.closes_eq_nil second.closing closedRight held)
    have phrase := outer.phrase.whole
    rwa [List.append_nil] at phrase

/-- With the parentheses around it an expression ends in front of what is left. -/
theorem ends_all {source : List Char} (framed : Framed (byteSize source) opens core closes rest e)
    (laid : Laid source (closes ++ rest)) :
    EndsBy (opens ++ core ++ closes) (nextStart (byteSize source) rest) := by
  rcases List.eq_nil_or_concat closes with rfl | ⟨before, last, rfl⟩
  · rw [List.append_nil]
    exact (framed.ends.mono framed.below).behind opens
  · have mark : last.lexeme = .closeParen := framed.closing _ (by simp)
    rw [List.concat_eq_append, List.append_assoc] at laid
    have stop := (laid.suffix (List.suffix_append before _)).token.below
    rw [List.concat_eq_append, ← List.append_assoc]
    exact (EndsBy.single (mark ▸ Lexeme.noConfusion) stop).behind _

end Framed

/-- The tokens in front of the rest are those that the span of the expression holds, with parentheses around
them. -/
def HasFrame (stop : Nat) (tokens : List Token) (e : Expr) (rest : List Token) : Prop :=
  ∃ opens core closes, tokens = opens ++ core ++ closes ++ rest ∧ Framed stop opens core closes rest e

namespace Parse

variable {source : List Char} {rank : Rank} {tokens rest : List Token} {base e : Expr}

/-- An expression whose span ends with the last of its tokens, and begins with the first one. -/
theorem framed_own (front : List Token) {last : Token} (other : last.lexeme ≠ .question true)
    (parse : Parse (byteSize source) rank (front ++ last :: rest) e rest)
    (laid : Laid source (front ++ last :: rest))
    (sound : ∀ t ∈ front ++ last :: rest, t.Sound)
    (start : e.span.start ≤ nextStart (byteSize source) (front ++ last :: rest))
    (stop : last.span.stop ≤ e.span.stop) :
    HasFrame (byteSize source) (front ++ last :: rest) e rest := by
  have between := (parse.placed laid).between
  have takes := parse.takes sound
  have split : front ++ last :: rest = front ++ [last] ++ rest := by simp
  have ends := (EndsBy.single other stop).behind front
  have starts := Nat.le_antisymm start between.above
  rw [split, Grammar.nextStart_append ends.ne_nil _ (byteSize source)] at starts
  rw [split] at takes
  exact ⟨[], front ++ [last], [], by simp, .whole takes starts ends between.below⟩

theorem framed_leaf {t : Token} (leaf : e.span = t.span) (other : t.lexeme ≠ .question true)
    (parse : Parse (byteSize source) rank (t :: rest) e rest) (laid : Laid source (t :: rest))
    (sound : ∀ t' ∈ t :: rest, t'.Sound) : HasFrame (byteSize source) (t :: rest) e rest :=
  framed_own [] other parse laid sound (congrArg Span.start leaf).le (congrArg Span.stop leaf).ge

/-- An expression that goes on behind its base and ends with a token of its own. -/
theorem framed_suffixed (marks : List Token) {last : Token} (other : last.lexeme ≠ .question true)
    (framed : HasFrame (byteSize source) tokens base (marks ++ last :: rest))
    (inner : Parse (byteSize source) rank tokens base (marks ++ last :: rest))
    (outer : Parse (byteSize source) rank tokens e rest) (laid : Laid source tokens) (sound : ∀ t ∈ tokens, t.Sound)
    (span : e.span = base.span.merge last.span) : HasFrame (byteSize source) tokens e rest := by
  obtain ⟨opens, core, closes, rfl, framed⟩ := framed
  have placed := inner.placed laid
  have behind := laid.suffix placed.front
  have mark := behind.suffix (List.suffix_append marks (last :: rest))
  have merged := placed.between.merge_eq mark.token (behind.nextStart_le (List.suffix_append marks _))
  have start := congrArg Span.start (span.trans merged)
  have stop : last.span.stop ≤ e.span.stop := by
    rw [span]
    exact (Span.within_merge_right _ _).2
  have below := (outer.placed laid).between.below
  have takesInner := inner.takes sound
  have takesOuter := outer.takes sound
  have split : marks ++ last :: rest = marks ++ [last] ++ rest := by simp
  rw [split] at framed takesInner takesOuter
  have regroup : opens ++ core ++ closes ++ (marks ++ [last] ++ rest) =
      opens ++ (core ++ closes ++ (marks ++ [last])) ++ rest := by simp
  rw [regroup] at takesOuter
  exact ⟨opens, _, [], by simp,
    framed.suffixed takesInner takesOuter start ((EndsBy.single other stop).behind marks) below⟩

theorem framed_conditional {inner after : List Token} {condition yes no : Expr} {glued : Bool} {s s' s'' : Span}
    (whole : Parse (byteSize source) rank tokens (.choose s'' condition yes no) rest)
    (parse : Parse (byteSize source) (.chain .lowest) tokens condition (⟨.question glued, s⟩ :: inner))
    (parseYes : Parse (byteSize source) .whole inner yes (⟨.colon, s'⟩ :: after)) (laid : Laid source tokens)
    (sound : ∀ t ∈ tokens, t.Sound)
    (frame : Laid source after → (∀ t ∈ after, t.Sound) → HasFrame (byteSize source) after no rest)
    (span : s'' = ⟨nextStart (byteSize source) tokens, nextStart (byteSize source) rest⟩) :
    HasFrame (byteSize source) tokens (.choose s'' condition yes no) rest := by
  subst span
  have behind : inner <:+ tokens := (List.suffix_cons _ _).trans (parse.takes sound).suffix
  have colon := (parseYes.takes fun t member => sound t (behind.mem member)).suffix
  have within : after <:+ tokens := ((List.suffix_cons _ _).trans colon).trans behind
  have laidNo := laid.suffix within
  obtain ⟨opens, core, closes, rfl, framed⟩ := frame laidNo fun t member => sound t (within.mem member)
  rw [List.append_assoc] at laidNo
  have below := (whole.placed laid).between.below
  have takes := whole.takes sound
  obtain ⟨front, rfl⟩ := within
  have ends := (framed.ends_all (laidNo.suffix (List.suffix_append _ _))).behind front
  have split : front ++ (opens ++ core ++ closes ++ rest) = front ++ (opens ++ core ++ closes) ++ rest :=
    (List.append_assoc _ _ _).symm
  rw [split] at takes ⊢
  exact ⟨[], front ++ (opens ++ core ++ closes), [], by simp,
    .whole takes (Grammar.nextStart_append ends.ne_nil _ _ _) ends below⟩

/-- What is taken has a frame. -/
theorem framed (parse : Parse (byteSize source) rank tokens e rest) (laid : Laid source tokens)
    (sound : ∀ t ∈ tokens, t.Sound) : HasFrame (byteSize source) tokens e rest := by
  induction parse with
  | keyword found =>
    exact framed_leaf (Grammar.keyword?_leaf found).1 Lexeme.noConfusion (.keyword found) laid sound
  | numeral digits s rest =>
    exact framed_leaf (Grammar.numeral_leaf s digits).1 Lexeme.noConfusion (.numeral digits s rest) laid sound
  | quoted content s rest => exact framed_leaf rfl Lexeme.noConfusion (.quoted content s rest) laid sound
  | ref scope name s rest =>
    exact framed_leaf (Grammar.reference_leaf s scope name).1 Lexeme.noConfusion (.ref scope name s rest) laid sound
  | @list tokens rest items last s enclosed each =>
    have whole := Parse.list s enclosed each
    have within := Span.within_merge_left s last
    have ends := Span.within_merge_right s last
    obtain ⟨inner, _, rfl, _⟩ := enclosed.takes (List.forall_mem_cons.mp sound).2
      fun item member => (each item member).takes
    exact framed_own (_ :: inner) Lexeme.noConfusion whole laid sound within.1 ends.2
  | @call name tokens rest items s last s' free enclosed each =>
    have whole := Parse.call s' free enclosed each
    have within := Span.within_merge_left s last
    have ends := Span.within_merge_right s last
    obtain ⟨inner, _, rfl, _⟩ := enclosed.takes (List.forall_mem_cons.mp (List.forall_mem_cons.mp sound).2).2
      fun item member => (each item member).takes
    exact framed_own (_ :: _ :: inner) Lexeme.noConfusion whole laid sound within.1 ends.2
  | @parens tokens rest e s s' _ ih =>
    have inner := laid.suffix (List.suffix_cons _ _)
    obtain ⟨opens, core, closes, rfl, framed⟩ := ih inner (List.forall_mem_cons.mp sound).2
    exact ⟨_, core, _, by simp, framed.parens s⟩
  | ofPrimary _ ih | ofMember _ ih | ofOperand _ _ ih | ofChain _ ih => exact ih laid sound
  | field s s' parse ih =>
    exact framed_suffixed [_] Lexeme.noConfusion (ih laid sound) parse (.field s s' parse) laid sound rfl
  | @index tokens marks inner rest base key safe s opened parse parseKey ih ihKey =>
    have whole := Parse.index s opened parse parseKey
    have within := (List.suffix_append marks inner).trans (parse.takes sound).suffix
    obtain ⟨taken, rfl, _⟩ := parseKey.takes fun t member => sound t (within.mem member)
    rw [← List.append_assoc] at parse ih
    exact framed_suffixed (marks ++ taken) Lexeme.noConfusion (ih laid sound) parse whole laid sound rfl
  | assert s parse ih =>
    exact framed_suffixed [] Lexeme.noConfusion (ih laid sound) parse (.assert s parse) laid sound rfl
  | @sign t op tokens rest e signed parse ih =>
    have whole := Parse.sign signed parse
    have soundInner := (List.forall_mem_cons.mp sound).2
    obtain ⟨opens, core, closes, rfl, framed⟩ := ih (laid.suffix (List.suffix_cons _ _)) soundInner
    have placed := parse.placed (laid.suffix (List.suffix_cons _ _))
    have same := laid.token.merge_eq placed.between (Nat.le_refl _)
    have start := congrArg Span.start same
    have stop := congrArg Span.stop same
    have plain : Balanced [t.lexeme] := by
      obtain ⟨lexeme, s⟩ := t
      cases lexeme <;> first | rfl | cases signed
    have outer := whole.takes sound
    exact ⟨[], _, closes, rfl, framed.signed plain (parse.takes soundInner) outer start stop⟩
  | @binary tokens mid rest left right op least s above parse parseRight ih ihRight =>
    have whole := Parse.binary s above parse parseRight
    obtain ⟨opens, core, closes, rfl, framed⟩ := ih laid sound
    have placed := parse.placed laid
    have behind := laid.suffix placed.front
    have soundRight := (List.forall_mem_cons.mp (List.forall_mem_append.mp sound).2).2
    have laidRight := behind.suffix (List.suffix_cons _ _)
    obtain ⟨opens', core', closes', rfl, framed'⟩ := ihRight laidRight soundRight
    have apart := behind.nextStart_le (List.suffix_cons _ _)
    have merged := placed.between.merge_eq (parseRight.placed laidRight).between apart
    have same := (Expr.span_join op left right).trans merged
    have split : opens ++ core ++ closes ++ (⟨.operator op, s⟩ :: (opens' ++ core' ++ closes' ++ rest)) =
        opens ++ (core ++ closes ++ ⟨.operator op, s⟩ :: (opens' ++ core')) ++ closes' ++ rest := by simp
    have outer := whole.takes sound
    rw [split] at outer
    have plain : Balanced [Lexeme.operator op] := rfl
    have start := congrArg Span.start same
    have stop := congrArg Span.stop same
    exact ⟨opens, _, closes', split,
      framed.infixed plain framed' (parse.takes sound) (parseRight.takes soundRight) outer start stop⟩
  | choose s s' parse parseYes parseNo unindexed _ _ ihNo =>
    exact framed_conditional (.choose s s' parse parseYes parseNo unindexed) parse parseYes laid sound ihNo rfl

end Parse

end LazyExpr
