import LazyExpr.Proofs.Syntax.Deriving
import LazyExpr.Proofs.Syntax.Parentheses

namespace LazyExpr

open Grammar (nextStart)

/-- A place between two characters of a text or at one of its ends, counted in bytes. -/
def Boundary (source : List Char) (place : Nat) : Prop :=
  ∃ left right, source = left ++ right ∧ place = byteSize left

theorem Boundary.le {source : List Char} {place : Nat} (boundary : Boundary source place) :
    place ≤ byteSize source := by
  obtain ⟨left, right, rfl, rfl⟩ := boundary
  rw [byteSize_append]
  exact Nat.le_add_right _ _

namespace Span

/-- The span is that of a part of the text which is not empty, and lies between two places. -/
structure Between (s : Span) (source : List Char) (low high : Nat) : Prop where
  nonempty : s.start < s.stop
  startBoundary : Boundary source s.start
  stopBoundary : Boundary source s.stop
  above : low ≤ s.start
  below : s.stop ≤ high

variable {s a b : Span} {source : List Char} {low mid mid' high : Nat}

theorem Between.widen {low' high' : Nat} (between : s.Between source low high) (lower : low' ≤ low)
    (higher : high ≤ high') : s.Between source low' high' :=
  { between with above := lower.trans between.above, below := between.below.trans higher }

/-- Of two spans one behind the other, the merge begins with the first and stops with the second. -/
theorem Between.merge_eq (first : a.Between source low mid) (second : b.Between source mid' high)
    (apart : mid ≤ mid') : a.merge b = ⟨a.start, b.stop⟩ := by
  have order : a.stop ≤ b.start := first.below.trans (apart.trans second.above)
  have starts : a.start ≤ b.start := first.nonempty.le.trans order
  have stops : a.stop ≤ b.stop := order.trans second.nonempty.le
  rw [Span.merge, Nat.min_eq_left starts, Nat.max_eq_right stops]

theorem Between.merge (first : a.Between source low mid) (second : b.Between source mid' high)
    (apart : mid ≤ mid') : (a.merge b).Between source low high := by
  rw [first.merge_eq second apart]
  have order : a.stop ≤ b.start := first.below.trans (apart.trans second.above)
  exact {
    nonempty := first.nonempty.trans_le (order.trans second.nonempty.le)
    startBoundary := first.startBoundary
    stopBoundary := second.stopBoundary
    above := first.above
    below := second.below }

/-- What stands between two spans lies within their merge. -/
theorem Between.within_merge (first : a.Between source low mid) (between : s.Between source mid mid')
    (second : b.Between source mid' high) : s.Within (a.merge b) := by
  have apart : mid ≤ mid' := between.above.trans (between.nonempty.le.trans between.below)
  rw [first.merge_eq second apart]
  exact ⟨first.nonempty.le.trans (first.below.trans between.above),
    between.below.trans (second.above.trans second.nonempty.le)⟩

end Span

/-- Tokens of a text, each at its span and one behind the other. -/
structure Laid (source : List Char) (tokens : List Token) : Prop where
  each : ∀ t ∈ tokens, t.span.Between source 0 (byteSize source)
  ordered : tokens.Pairwise fun a b => a.span.stop ≤ b.span.start

theorem Laid.of_all? {source : List Char} {tokens : List Token} (scanned : Token.all? source = some tokens) :
    Laid source tokens where
  each := by
    intro t member
    obtain ⟨word, made, left, right, rfl, same⟩ := Token.scan?_covers scanned t member
    have positive := byteSize_pos made.ne_nil
    have stop : t.span.stop = byteSize (left ++ word) := by rw [same, byteSize_append, Nat.zero_add]
    have boundary : Boundary (left ++ word ++ right) t.span.stop := ⟨left ++ word, right, rfl, stop⟩
    refine ⟨?_, ⟨left, word ++ right, ?_, ?_⟩, boundary, Nat.zero_le _, boundary.le⟩
    · rw [same]
      dsimp only
      omega
    · rw [List.append_assoc]
    · rw [same, Nat.zero_add]
  ordered := Token.scan?_ordered scanned

namespace Laid

variable {source : List Char} {tokens rest : List Token} {t : Token}

theorem suffix (laid : Laid source tokens) (behind : rest <:+ tokens) : Laid source rest where
  each t member := laid.each t (behind.mem member)
  ordered := laid.ordered.sublist behind.sublist

/-- A token stands before what is behind it. -/
theorem token (laid : Laid source (t :: rest)) :
    t.span.Between source t.span.start (nextStart (byteSize source) rest) := by
  have here := laid.each t List.mem_cons_self
  refine { here with above := Nat.le_refl _, below := ?_ }
  cases rest with
  | nil => exact here.below
  | cons next rest => exact (List.pairwise_cons.mp laid.ordered).1 next List.mem_cons_self

theorem nextStart_le (laid : Laid source tokens) (behind : rest <:+ tokens) :
    nextStart (byteSize source) tokens ≤ nextStart (byteSize source) rest := by
  obtain ⟨front, rfl⟩ := behind
  induction front with
  | nil => exact Nat.le_refl _
  | cons t front ih =>
    have here := laid.token
    exact (here.nonempty.le.trans here.below).trans (ih (laid.suffix (List.suffix_cons _ _)))

theorem nextStart_boundary (laid : Laid source tokens) : Boundary source (nextStart (byteSize source) tokens) := by
  cases tokens with
  | nil => exact ⟨source, [], (List.append_nil source).symm, rfl⟩
  | cons t rest => exact (laid.each t List.mem_cons_self).startBoundary

end Laid

/-- Items that are taken one behind the other, with other tokens before, between and behind them. -/
inductive InTurn : List Token → List Item → List Token → Prop
  | none {tokens rest : List Token} : rest <:+ tokens → InTurn tokens [] rest
  | some {tokens rest : List Token} {item : Item} {items : List Item} : item.tokens <:+ tokens →
      InTurn item.rest items rest → InTurn tokens (item :: items) rest

namespace InTurn

variable {tokens tokens' rest rest' : List Token} {items : List Item}

theorem ahead (turn : InTurn tokens items rest) (wider : tokens <:+ tokens') : InTurn tokens' items rest := by
  cases turn with
  | none behind => exact .none (behind.trans wider)
  | some first more => exact .some (first.trans wider) more

theorem behind (turn : InTurn tokens items rest) (wider : rest' <:+ rest) : InTurn tokens items rest' := by
  induction turn with
  | none before => exact .none (wider.trans before)
  | some first _ ih => exact .some first (ih wider)

end InTurn

theorem Row.inTurn {close : Lexeme} {tokens rest : List Token} {items : List Item} {last : Span}
    (row : Row close tokens items last rest) : InTurn tokens items (⟨close, last⟩ :: rest) := by
  induction row with
  | done => exact .none List.suffix_rfl
  | more s _ ih => exact .some (List.suffix_cons _ _) ih

theorem Enclosed.inTurn {close : Lexeme} {tokens rest : List Token} {items : List Item} {last : Span}
    (enclosed : Enclosed close tokens items last rest) : InTurn tokens items (⟨close, last⟩ :: rest) := by
  cases enclosed with
  | none => exact .none List.suffix_rfl
  | some row => exact .some List.suffix_rfl row.inTurn

namespace Expr

theorem children_join (op : Operator) (left right : Expr) : (join op left right).children = [left, right] := by
  cases op <;> rfl

theorem span_join (op : Operator) (left right : Expr) : (join op left right).span = left.span.merge right.span := by
  cases op <;> rfl

end Expr

namespace Grammar

theorem keyword?_leaf {s : Span} {name : String} {e : Expr} (found : keyword? s name = some e) :
    e.span = s ∧ e.children = [] := by
  obtain ⟨_, rfl⟩ | ⟨_, rfl⟩ | ⟨_, _, rfl⟩ := keyword?_cases found
  all_goals exact ⟨rfl, rfl⟩

theorem numeral_leaf (s : Span) (digits : List Char) :
    (numeral s digits).span = s ∧ (numeral s digits).children = [] := by
  unfold numeral
  split <;> exact ⟨rfl, rfl⟩

theorem reference_leaf (s : Span) (scope name : String) :
    (reference s scope name).span = s ∧ (reference s scope name).children = [] := by
  unfold reference
  split <;> exact ⟨rfl, rfl⟩

end Grammar

namespace Parse

variable {stop : Nat} {rank : Rank} {tokens rest : List Token} {e : Expr}

/-- The children of a node are taken one behind the other from the tokens of the node. -/
theorem parts (parse : Parse stop rank tokens e rest) :
    ∃ items : List Item, items.map (·.expr) = e.children ∧ InTurn tokens items rest ∧
      ∀ item ∈ items, ∃ rank, Parse stop rank item.tokens item.expr item.rest := by
  induction parse with
  | keyword found =>
    exact ⟨[], (Grammar.keyword?_leaf found).2.symm, .none (List.suffix_cons _ _), List.forall_mem_nil _⟩
  | numeral digits s rest =>
    exact ⟨[], (Grammar.numeral_leaf s digits).2.symm, .none (List.suffix_cons _ _), List.forall_mem_nil _⟩
  | quoted content s rest => exact ⟨[], rfl, .none (List.suffix_cons _ _), List.forall_mem_nil _⟩
  | ref scope name s rest =>
    exact ⟨[], (Grammar.reference_leaf s scope name).2.symm, .none (List.suffix_cons _ _), List.forall_mem_nil _⟩
  | @list tokens rest items last s enclosed each =>
    exact ⟨items, rfl, (enclosed.inTurn.ahead (List.suffix_cons _ _)).behind (List.suffix_cons _ _),
      fun item member => ⟨.whole, each item member⟩⟩
  | @call name tokens rest items s last s' free enclosed each =>
    have front : tokens <:+ ⟨.word name, s⟩ :: ⟨.openParen, s'⟩ :: tokens := ⟨[_, _], rfl⟩
    exact ⟨items, rfl, (enclosed.inTurn.ahead front).behind (List.suffix_cons _ _),
      fun item member => ⟨.whole, each item member⟩⟩
  | parens s s' _ ih =>
    obtain ⟨items, same, turn, each⟩ := ih
    exact ⟨items, same, (turn.ahead (List.suffix_cons _ _)).behind (List.suffix_cons _ _), each⟩
  | ofPrimary _ ih | ofMember _ ih | ofOperand _ _ ih | ofChain _ ih => exact ih
  | @field tokens rest base name safe s s' parse =>
    exact ⟨[⟨tokens, base, _⟩], rfl, .some List.suffix_rfl (.none ⟨[_, _], rfl⟩),
      List.forall_mem_singleton.mpr ⟨_, parse⟩⟩
  | @index tokens opens inner rest base key safe s opened parse parseKey =>
    exact ⟨[⟨tokens, base, _⟩, ⟨inner, key, _⟩], rfl,
      .some List.suffix_rfl (.some (List.suffix_append _ _) (.none (List.suffix_cons _ _))),
      List.forall_mem_cons.mpr ⟨⟨_, parse⟩, List.forall_mem_singleton.mpr ⟨_, parseKey⟩⟩⟩
  | @assert tokens rest e s parse =>
    exact ⟨[⟨tokens, e, _⟩], rfl, .some List.suffix_rfl (.none (List.suffix_cons _ _)),
      List.forall_mem_singleton.mpr ⟨_, parse⟩⟩
  | @sign t op tokens rest e signed parse =>
    exact ⟨[⟨tokens, e, rest⟩], rfl, .some (List.suffix_cons _ _) (.none List.suffix_rfl),
      List.forall_mem_singleton.mpr ⟨_, parse⟩⟩
  | @binary tokens mid rest left right op least s above parseLeft parseRight =>
    exact ⟨[⟨tokens, left, _⟩, ⟨mid, right, rest⟩], (Expr.children_join op left right).symm,
      .some List.suffix_rfl (.some (List.suffix_cons _ _) (.none List.suffix_rfl)),
      List.forall_mem_cons.mpr ⟨⟨_, parseLeft⟩, List.forall_mem_singleton.mpr ⟨_, parseRight⟩⟩⟩
  | @choose tokens inner after rest condition yes no glued s s' parse parseYes parseNo =>
    exact ⟨[⟨tokens, condition, _⟩, ⟨inner, yes, _⟩, ⟨after, no, rest⟩], rfl,
      .some List.suffix_rfl (.some (List.suffix_cons _ _) (.some (List.suffix_cons _ _) (.none List.suffix_rfl))),
      List.forall_mem_cons.mpr ⟨⟨_, parse⟩,
        List.forall_mem_cons.mpr ⟨⟨_, parseYes⟩, List.forall_mem_singleton.mpr ⟨_, parseNo⟩⟩⟩⟩

end Parse

/-- The item is taken from the front of its tokens, its span lies where they stand, and those of its children
lie within. -/
structure Item.Placed (source : List Char) (item : Item) : Prop where
  front : item.rest <:+ item.tokens
  between : item.expr.span.Between source (nextStart (byteSize source) item.tokens)
    (nextStart (byteSize source) item.rest)
  encloses : ∀ child ∈ item.expr.children, child.span.Within item.expr.span

section

variable {source : List Char} {tokens rest : List Token} {items : List Item}

theorem InTurn.suffix (turn : InTurn tokens items rest) (each : ∀ item ∈ items, item.Placed source) :
    rest <:+ tokens := by
  induction turn with
  | none before => exact before
  | some first _ ih =>
    obtain ⟨here, others⟩ := List.forall_mem_cons.mp each
    exact (ih others).trans (here.front.trans first)

/-- Each item stands behind the one before it, so that all of them are placed if each is wherever it stands. -/
theorem InTurn.placed (turn : InTurn tokens items rest) (laid : Laid source tokens)
    (each : ∀ item ∈ items, Laid source item.tokens → item.Placed source) :
    ∀ item ∈ items, item.tokens <:+ tokens ∧ item.Placed source := by
  induction turn with
  | none => exact List.forall_mem_nil _
  | some first _ ih =>
    obtain ⟨here, others⟩ := List.forall_mem_cons.mp each
    have placed := here (laid.suffix first)
    have behind := placed.front.trans first
    refine List.forall_mem_cons.mpr ⟨⟨first, placed⟩, fun item member => ?_⟩
    obtain ⟨within, next⟩ := ih (laid.suffix behind) others item member
    exact ⟨within.trans behind, next⟩

theorem InTurn.between (turn : InTurn tokens items rest) (laid : Laid source tokens)
    (each : ∀ item ∈ items, item.Placed source) :
    ∀ e ∈ items.map (·.expr),
      e.span.Between source (nextStart (byteSize source) tokens) (nextStart (byteSize source) rest) := by
  induction turn with
  | none => exact List.forall_mem_nil _
  | @some tokens rest item items first more ih =>
    obtain ⟨here, others⟩ := List.forall_mem_cons.mp each
    have inner : Laid source item.rest := laid.suffix (here.front.trans first)
    refine List.forall_mem_cons.mpr ⟨?_, fun e member => ?_⟩
    · exact here.between.widen (laid.nextStart_le first) (inner.nextStart_le (more.suffix others))
    · exact (ih inner others e member).widen (laid.nextStart_le (here.front.trans first)) (Nat.le_refl _)

theorem InTurn.pairwise (turn : InTurn tokens items rest) (laid : Laid source tokens)
    (each : ∀ item ∈ items, item.Placed source) :
    (items.map (·.expr)).Pairwise fun a b => a.span.stop ≤ b.span.start := by
  induction turn with
  | none => exact .nil
  | @some tokens rest item items first more ih =>
    obtain ⟨here, others⟩ := List.forall_mem_cons.mp each
    have inner : Laid source item.rest := laid.suffix (here.front.trans first)
    exact .cons (fun e member => here.between.below.trans (more.between inner others e member).above)
      (ih inner others)

/-- From one mark up to another that closes what it opens: the items in between lie within. -/
theorem Enclosed.placed {close : Lexeme} {s last : Span} {low : Nat}
    (enclosed : Enclosed close tokens items last rest) (laid : Laid source tokens)
    (each : ∀ item ∈ items, item.Placed source)
    (opens : s.Between source low (nextStart (byteSize source) tokens)) :
    rest <:+ tokens ∧ (s.merge last).Between source low (nextStart (byteSize source) rest) ∧
      ∀ e ∈ items.map (·.expr), e.span.Within (s.merge last) := by
  have closing : ⟨close, last⟩ :: rest <:+ tokens := enclosed.inTurn.suffix each
  have closes : last.Between source last.start (nextStart (byteSize source) rest) := (laid.suffix closing).token
  have apart : nextStart (byteSize source) tokens ≤ last.start := laid.nextStart_le closing
  have inside := enclosed.inTurn.between laid each
  exact ⟨(List.suffix_cons _ _).trans closing, opens.merge closes apart, fun e member =>
    opens.within_merge (inside e member) closes⟩

end

namespace Parse

variable {source : List Char} {rank : Rank} {tokens rest : List Token} {e : Expr}

theorem placed_leaf {t : Token} (laid : Laid source (t :: rest)) (leaf : e.span = t.span ∧ e.children = []) :
    Item.Placed source ⟨t :: rest, e, rest⟩ where
  front := List.suffix_cons _ _
  between := leaf.1 ▸ laid.token
  encloses := by
    rw [leaf.2]
    exact List.forall_mem_nil _

/-- A node and its children have their spans where their tokens stand. -/
theorem placed (parse : Parse (byteSize source) rank tokens e rest) (laid : Laid source tokens) :
    Item.Placed source ⟨tokens, e, rest⟩ := by
  induction parse with
  | keyword found => exact placed_leaf laid (Grammar.keyword?_leaf found)
  | numeral digits s rest => exact placed_leaf laid (Grammar.numeral_leaf s digits)
  | quoted content s rest => exact placed_leaf laid ⟨rfl, rfl⟩
  | ref scope name s rest => exact placed_leaf laid (Grammar.reference_leaf s scope name)
  | @list tokens rest items last s enclosed _ ih =>
    have inner : Laid source tokens := laid.suffix (List.suffix_cons _ _)
    have each := fun item member => (enclosed.inTurn.placed inner ih item member).2
    obtain ⟨front, between, encloses⟩ := enclosed.placed inner each laid.token
    exact ⟨front.trans (List.suffix_cons _ _), between, encloses⟩
  | @call name tokens rest items s last s' _ enclosed _ ih =>
    have second : Laid source (⟨.openParen, s'⟩ :: tokens) := laid.suffix (List.suffix_cons _ _)
    have inner : Laid source tokens := second.suffix (List.suffix_cons _ _)
    have each := fun item member => (enclosed.inTurn.placed inner ih item member).2
    have opens := laid.token.widen (Nat.le_refl _) (second.nextStart_le (List.suffix_cons _ _))
    obtain ⟨front, between, encloses⟩ := enclosed.placed inner each opens
    exact ⟨front.trans ⟨[_, _], rfl⟩, between, encloses⟩
  | @parens tokens rest e s s' _ ih =>
    have placed := ih (laid.suffix (List.suffix_cons _ _))
    have closing : ⟨.closeParen, s'⟩ :: rest <:+ ⟨.openParen, s⟩ :: tokens :=
      placed.front.trans (List.suffix_cons _ _)
    exact {
      front := (List.suffix_cons _ _).trans closing
      between := placed.between.widen (laid.nextStart_le (List.suffix_cons _ _))
        ((laid.suffix closing).nextStart_le (List.suffix_cons _ _))
      encloses := placed.encloses }
  | ofPrimary _ ih | ofMember _ ih | ofOperand _ _ ih | ofChain _ ih => exact ih laid
  | @field tokens rest base name safe s s' _ ih =>
    have placed := ih laid
    have access := laid.suffix placed.front
    have named := (access.suffix (List.suffix_cons _ _)).token
    exact {
      front := List.IsSuffix.trans ⟨[_, _], rfl⟩ placed.front
      between := placed.between.merge named (access.nextStart_le (List.suffix_cons _ _))
      encloses := List.forall_mem_singleton.mpr (Span.within_merge_left _ _) }
  | @index tokens opens inner rest base key safe s _ _ _ ih ihKey =>
    have placed := ih laid
    have behind := laid.suffix placed.front
    have within := behind.suffix (List.suffix_append opens inner)
    have placedKey := ihKey within
    have closing := (within.suffix placedKey.front).token
    have apart := behind.nextStart_le (List.suffix_append opens inner)
    have apart' := apart.trans (within.nextStart_le placedKey.front)
    exact {
      front := (List.suffix_cons _ _).trans (placedKey.front.trans ((List.suffix_append _ _).trans placed.front))
      between := placed.between.merge closing apart'
      encloses := List.forall_mem_cons.mpr ⟨Span.within_merge_left _ _, List.forall_mem_singleton.mpr
        (placed.between.within_merge (placedKey.between.widen apart (Nat.le_refl _)) closing)⟩ }
  | @assert tokens rest e s _ ih =>
    have placed := ih laid
    have mark := (laid.suffix placed.front).token
    exact {
      front := (List.suffix_cons _ _).trans placed.front
      between := placed.between.merge mark (Nat.le_refl _)
      encloses := List.forall_mem_singleton.mpr (Span.within_merge_left _ _) }
  | @sign t op tokens rest e _ _ ih =>
    have placed := ih (laid.suffix (List.suffix_cons _ _))
    exact {
      front := placed.front.trans (List.suffix_cons _ _)
      between := laid.token.merge placed.between (Nat.le_refl _)
      encloses := List.forall_mem_singleton.mpr (Span.within_merge_right _ _) }
  | @binary tokens mid rest left right op least s _ _ _ ihLeft ihRight =>
    have placedLeft := ihLeft laid
    have behind := laid.suffix placedLeft.front
    have placedRight := ihRight (behind.suffix (List.suffix_cons _ _))
    have apart := behind.nextStart_le (List.suffix_cons _ _)
    refine ⟨placedRight.front.trans ((List.suffix_cons _ _).trans placedLeft.front), ?_, ?_⟩
    · dsimp only
      rw [Expr.span_join]
      exact placedLeft.between.merge placedRight.between apart
    · dsimp only
      rw [Expr.children_join, Expr.span_join]
      exact List.forall_mem_cons.mpr ⟨Span.within_merge_left _ _,
        List.forall_mem_singleton.mpr (Span.within_merge_right _ _)⟩
  | @choose tokens inner after rest condition yes no glued s s' _ _ _ _ ih ihYes ihNo =>
    have placed := ih laid
    have question := laid.suffix placed.front
    have placedYes := ihYes (question.suffix (List.suffix_cons _ _))
    have colon := (question.suffix (List.suffix_cons _ _)).suffix placedYes.front
    have placedNo := ihNo (colon.suffix (List.suffix_cons _ _))
    let items : List Item :=
      [⟨tokens, condition, ⟨.question glued, s⟩ :: inner⟩, ⟨inner, yes, ⟨.colon, s'⟩ :: after⟩, ⟨after, no, rest⟩]
    have turn : InTurn tokens items rest := .some List.suffix_rfl
      (.some (List.suffix_cons _ _) (.some (List.suffix_cons _ _) (.none List.suffix_rfl)))
    have each : ∀ item ∈ items, item.Placed source := List.forall_mem_cons.mpr ⟨placed,
      List.forall_mem_cons.mpr ⟨placedYes, List.forall_mem_singleton.mpr placedNo⟩⟩
    have inside := turn.between laid each
    have front := turn.suffix each
    have first := inside condition List.mem_cons_self
    exact {
      front
      between := {
        nonempty := first.above.trans_lt (first.nonempty.trans_le first.below)
        startBoundary := laid.nextStart_boundary
        stopBoundary := (laid.suffix front).nextStart_boundary
        above := Nat.le_refl _
        below := Nat.le_refl _ }
      encloses := fun child member => ⟨(inside child member).above, (inside child member).below⟩ }

/-- Whatever stands inside what is taken is itself taken from some of the tokens. -/
theorem occurs {node : Expr} (parse : Parse (byteSize source) rank tokens e rest) (laid : Laid source tokens)
    (occurs : node.Occurs e) :
    ∃ rank tokens' rest', tokens' <:+ tokens ∧ Parse (byteSize source) rank tokens' node rest' := by
  induction occurs generalizing rank tokens rest with
  | here => exact ⟨rank, tokens, rest, List.suffix_rfl, parse⟩
  | inside member _ ih =>
    obtain ⟨items, same, turn, each⟩ := parse.parts
    rw [← same] at member
    obtain ⟨item, among, rfl⟩ := List.mem_map.mp member
    obtain ⟨_, parseItem⟩ := each item among
    have placed := turn.placed laid fun item among laid => (each item among).elim fun _ parse => parse.placed laid
    have within := (placed item among).1
    obtain ⟨rank', tokens', rest', inner, parseNode⟩ := ih parseItem (laid.suffix within)
    exact ⟨rank', tokens', rest', inner.trans within, parseNode⟩

/-- The children of a node have their spans one behind the other. -/
theorem pairwise (parse : Parse (byteSize source) rank tokens e rest) (laid : Laid source tokens) :
    e.children.Pairwise fun a b => a.span.stop ≤ b.span.start := by
  obtain ⟨items, same, turn, each⟩ := parse.parts
  have placed := turn.placed laid fun item among laid => (each item among).elim fun _ parse => parse.placed laid
  rw [← same]
  exact turn.pairwise laid fun item among => (placed item among).2

end Parse

/-- Spans are nested: every node of an expression that was read has the span of a part of the text that is not
empty and ends between characters, and the children of the node have theirs inside it, one behind the other. -/
theorem read_nested {source : String} {e node : Expr} (accepted : read source = .ok e) (occurs : node.Occurs e) :
    (node.span.start < node.span.stop ∧ node.span.stop ≤ byteSize source.toList ∧
      Boundary source.toList node.span.start ∧ Boundary source.toList node.span.stop) ∧
    (∀ child ∈ node.children, child.span.Within node.span) ∧
    node.children.Pairwise fun a b => a.span.stop ≤ b.span.start := by
  obtain ⟨all, scanned, _, whole⟩ := parse_of_read accepted
  have laid := Laid.of_all? scanned
  obtain ⟨rank, tokens, rest, inner, parse⟩ := whole.occurs laid occurs
  have placed := parse.placed (laid.suffix inner)
  have between := placed.between
  exact ⟨⟨between.nonempty, between.stopBoundary.le, between.startBoundary, between.stopBoundary⟩, placed.encloses,
    parse.pairwise (laid.suffix inner)⟩

theorem read_nested_index :
    let base : Expr := .coalesce ⟨2, 10⟩ (.literal ⟨2, 3⟩ (.int 1)) (.list ⟨7, 10⟩ [.literal ⟨8, 9⟩ (.int 2)])
    let node : Expr := .index ⟨2, 14⟩ base (.literal ⟨12, 13⟩ (.int 3)) false
    let e : Expr := .unary ⟨0, 14⟩ .not node
    read "!(1 ?? [2])[3]" = .ok e ∧ node.Occurs e ∧
      (node.span.start < node.span.stop ∧ node.span.stop ≤ byteSize "!(1 ?? [2])[3]".toList ∧
        Boundary "!(1 ?? [2])[3]".toList node.span.start ∧ Boundary "!(1 ?? [2])[3]".toList node.span.stop) ∧
      (∀ child ∈ node.children, child.span.Within node.span) ∧
      node.children.Pairwise fun a b => a.span.stop ≤ b.span.start := by
  intro base node e
  let tokens : List Token := [⟨.bang, ⟨0, 1⟩⟩, ⟨.openParen, ⟨1, 2⟩⟩, ⟨.numeral ['1'], ⟨2, 3⟩⟩,
    ⟨.operator .coalesce, ⟨4, 6⟩⟩, ⟨.openBracket, ⟨7, 8⟩⟩, ⟨.numeral ['2'], ⟨8, 9⟩⟩, ⟨.closeBracket, ⟨9, 10⟩⟩,
    ⟨.closeParen, ⟨10, 11⟩⟩, ⟨.openBracket, ⟨11, 12⟩⟩, ⟨.numeral ['3'], ⟨12, 13⟩⟩, ⟨.closeBracket, ⟨13, 14⟩⟩]
  have scanned : Token.all? "!(1 ?? [2])[3]".toList = some tokens := rfl
  have tree : Grammar.whole? (byteSize "!(1 ?? [2])[3]".toList) tokens = some e := rfl
  have faultless : tokens.findSome? Token.fault? = none := rfl
  have accepted : read "!(1 ?? [2])[3]" = .ok e :=
    read_eq_ok_iff.mpr ⟨tokens, match?_eq_some_iff.mpr ⟨scanned, tree⟩, faultless⟩
  have occurs : node.Occurs e := .inside List.mem_cons_self .here
  exact ⟨accepted, occurs, read_nested accepted occurs⟩

end LazyExpr
