import LazyExpr.Proofs.Syntax.Erasure
import LazyExpr.Proofs.Syntax.Phrase

namespace LazyExpr

open Lexeme (separated access opening Next closes endsChain Unindexed)

/-- Lexemes as tokens of no text. -/
def bare (ls : List Lexeme) : List Token := ls.map fun lexeme => ⟨lexeme, .synthetic⟩

@[simp] theorem bare_nil : bare [] = [] := rfl

@[simp] theorem bare_cons (lexeme : Lexeme) (ls : List Lexeme) :
    bare (lexeme :: ls) = ⟨lexeme, .synthetic⟩ :: bare ls := rfl

theorem map_withoutSpan (tokens : List Token) : tokens.map Token.withoutSpan = bare (tokens.map (·.lexeme)) := by
  simp [bare, Token.withoutSpan]

/-- The reader takes every phrase of fewer than `n` lexemes in one piece. -/
def Reader.Covers (self : Reader Expr) (n : Nat) : Prop :=
  ∀ {ls e rest}, Phrase .whole ls e → ls.length < n → Next closes rest →
    self (bare (ls ++ rest)) = some (e, bare rest)

namespace Phrase

open Grammar

variable {self : Reader Expr} {n : Nat} {ls rest : List Lexeme} {e : Expr}

/-- Behind an item stands a comma or the closing mark. -/
theorem next_item {close : Lexeme} (closing : close = .closeParen ∨ close = .closeBracket)
    (items : List (List Lexeme)) (rest : List Lexeme) :
    Next closes (items.flatMap (.comma :: ·) ++ close :: rest) := by
  rcases items with _ | ⟨item, items⟩
  · rcases closing with rfl | rfl <;> (rintro _ ⟨⟩; rfl)
  · rintro _ ⟨⟩
    rfl

theorem moreItems_reads (covers : self.Covers n) (rest : List Lexeme) {close : Lexeme}
    (closing : close = .closeParen ∨ close = .closeBracket) {items : List (List Lexeme × Expr)}
    (phrases : ∀ item ∈ items, Phrase .whole item.1 item.2) (short : ∀ item ∈ items, item.1.length < n)
    {fuel : Nat} (enough : items.length ≤ fuel) :
    moreItems self close fuel (bare ((items.map (·.1)).flatMap (.comma :: ·) ++ close :: rest)) =
      some ((items.map (·.2), .synthetic), bare rest) := by
  induction items generalizing fuel with
  | nil =>
    rcases closing with rfl | rfl <;> cases fuel <;> rfl
  | cons item items ih =>
    obtain ⟨phrase, phrases⟩ := List.forall_mem_cons.mp phrases
    obtain ⟨shortItem, short⟩ := List.forall_mem_cons.mp short
    rcases fuel with _ | fuel
    · cases enough
    have first := covers phrase shortItem (next_item closing (items.map (·.1)) rest)
    have behind := ih phrases short (Nat.le_of_succ_le_succ enough)
    simp only [List.map_cons, List.flatMap_cons, List.cons_append, List.append_assoc, bare_cons, moreItems, first,
      behind]

theorem items_reads (covers : self.Covers n) (rest : List Lexeme) {close : Lexeme}
    (closing : close = .closeParen ∨ close = .closeBracket) {items : List (List Lexeme × Expr)}
    (phrases : ∀ item ∈ items, Phrase .whole item.1 item.2)
    (bounded : (separated (items.map (·.1))).length < n) :
    Grammar.items self close (bare (separated (items.map (·.1)) ++ close :: rest)) =
      some ((items.map (·.2), .synthetic), bare rest) := by
  have short : ∀ item ∈ items, item.1.length < n := fun item member =>
    Nat.lt_of_le_of_lt (Lexeme.length_le_separated (List.mem_map_of_mem member)) bounded
  rcases items with _ | ⟨item, items⟩
  · simp [separated, Grammar.items]
  · obtain ⟨phrase, phrases⟩ := List.forall_mem_cons.mp phrases
    obtain ⟨shortItem, short⟩ := List.forall_mem_cons.mp short
    have first := covers phrase shortItem (next_item closing (items.map (·.1)) rest)
    have enough : items.length ≤ (bare ((items.map (·.1)).flatMap (.comma :: ·) ++ close :: rest)).length := by
      have count := Lexeme.length_le_flatMap_comma (items.map (·.1))
      simp only [List.length_map] at count
      simp only [bare, List.length_map, List.length_append]
      omega
    have behind := moreItems_reads covers rest closing phrases short enough
    obtain ⟨head, tail, same, notParen, notBracket⟩ := phrase.opens
    have opening : head ≠ close := by
      rcases closing with rfl | rfl
      · exact notParen
      · exact notBracket
    simp only [List.map_cons, separated, List.append_assoc, same, List.cons_append, bare_cons] at first ⊢
    simp only [Grammar.items, if_neg opening, first, behind]

theorem primary_reads (covers : self.Covers n) (phrase : Phrase .primary ls e) (short : ls.length ≤ n) :
    primary self (bare (ls ++ rest)) = some (e, bare rest) := by
  cases phrase with
  | null => rfl
  | undefined => rfl
  | bool b => cases b <;> rfl
  | numeral value => simp [primary, Grammar.numeral, value]
  | quoted content => rfl
  | ref scope name => simp [primary, reference, Scope.ofKeyword?_keyword]
  | @list items phrases =>
    simp only [List.length_cons, List.length_append] at short
    have inner := items_reads covers rest (.inr rfl) phrases (by omega)
    simp [primary, inner]
  | @call name items free phrases =>
    simp only [List.length_cons, List.length_append] at short
    have inner := items_reads covers rest (.inl rfl) phrases (by omega)
    simp [primary, free, inner]
  | @parens inner e phrase =>
    simp only [List.length_cons, List.length_append] at short
    have next : Next closes (.closeParen :: rest) := by
      rintro _ ⟨⟩
      rfl
    have inside := covers phrase (by omega) next
    simp [primary, inside]

/-- Reading starts with a primary expression and adds suffixes to it until it has `e`. -/
def ReadsMember (self : Reader Expr) (tokens : List Token) (e : Expr) (rest : List Token) : Prop :=
  ∃ head mid count, primary self tokens = some (head, mid) ∧ count + rest.length ≤ mid.length ∧
    ∀ fuel, suffixes self (count + fuel) head mid = suffixes self fuel e rest

theorem ReadsMember.more {tokens rest behind : List Token} {longer : Expr}
    (reads : ReadsMember self tokens e rest) (suffix : suffix? self e rest = some (longer, behind))
    (shorter : behind.length < rest.length) : ReadsMember self tokens longer behind := by
  obtain ⟨head, mid, count, first, counted, run⟩ := reads
  refine ⟨head, mid, count + 1, first, by omega, fun fuel => ?_⟩
  rw [Nat.add_assoc, Nat.add_comm 1 fuel, run]
  simp only [suffixes, suffix]

theorem suffix?_field {base : Expr} (synthetic : base.span = .synthetic) (name : String) (safe : Bool) :
    suffix? self base (bare (access safe :: .word name :: rest)) =
      some (.field .synthetic base name safe, bare rest) := by
  cases safe <;> simp [access, suffix?, synthetic]

theorem suffix?_index (covers : self.Covers n) {ks : List Lexeme} {base key : Expr}
    (synthetic : base.span = .synthetic) (phrase : Phrase .whole ks key) (short : ks.length < n) (safe : Bool) :
    suffix? self base (bare (opening safe ++ (ks ++ .closeBracket :: rest))) =
      some (.index .synthetic base key safe, bare rest) := by
  have next : Next closes (.closeBracket :: rest) := by
    rintro _ ⟨⟩
    rfl
  have inner := covers phrase short next
  cases safe <;> simp [opening, suffix?, index?, inner, synthetic]

theorem member_reads (covers : self.Covers n) {rank : Rank} (phrase : Phrase rank ls e) (tight : rank = .member)
    (short : ls.length ≤ n) (rest : List Lexeme) : ReadsMember self (bare (ls ++ rest)) e (bare rest) := by
  induction phrase generalizing rest with
  | ofPrimary phrase =>
    refine ⟨_, _, 0, primary_reads covers phrase short, ?_, fun fuel => ?_⟩
    · rw [Nat.zero_add]
    · rw [Nat.zero_add]
  | @field ls base name safe phrase ih =>
    rw [List.length_append] at short
    have reads := ih tight (by omega) (access safe :: .word name :: rest)
    rw [List.append_assoc]
    refine reads.more (suffix?_field phrase.span name safe) ?_
    simp only [bare_cons, List.length_cons]
    omega
  | @index ls ks base key safe phrase inner ih =>
    simp only [List.length_append, List.length_cons] at short
    have reads := ih tight (by omega) (opening safe ++ (ks ++ .closeBracket :: rest))
    simp only [List.append_assoc, List.cons_append, List.nil_append]
    refine reads.more (suffix?_index covers phrase.span inner (by omega) safe) ?_
    simp only [bare, List.length_map, List.length_append, List.length_cons]
    omega
  | @assert ls e phrase ih =>
    rw [List.length_append] at short
    have reads := ih tight (by omega) (.bang :: rest)
    rw [List.append_assoc]
    refine reads.more ?_ (Nat.lt_succ_self _)
    simp [suffix?, phrase.span]
  | _ => cases tight

/-- Nothing of these lexemes goes on with a chain of operators. -/
structure Stops (reader : Reader Expr) (rest : List Lexeme) : Prop where
  suffix : ∀ e, suffix? reader e (bare rest) = none
  infixed : ∀ op, rest.head? ≠ some (.operator op)

theorem stops_of_next (next : Next endsChain rest) : Stops self rest where
  suffix := by
    intro e
    rcases rest with _ | ⟨lexeme, rest⟩
    · rfl
    have ending := next lexeme rfl
    cases lexeme with
    | question glued =>
      cases glued with
      | false => rfl
      | true => cases ending
    | _ => first | rfl | cases ending
  infixed := by
    intro op first
    cases next _ first

/-- No suffix stands behind an operand where the question mark of a conditional does: in the bracket that may follow
at once there is no item, or one with a comma behind it. -/
theorem question_stops (covers : self.Covers n) (declines : ∀ rest, self (bare (.closeBracket :: rest)) = none)
    {ys : List Lexeme} {yes : Expr} (phrase : Phrase .whole ys yes) (short : ys.length ≤ n) {glued : Bool}
    (unindexed : glued = true → Unindexed ys yes) (rest : List Lexeme) :
    Stops self (.question glued :: (ys ++ rest)) where
  suffix := by
    intro e
    cases glued with
    | false => rfl
    | true =>
      by_cases bracket : ys.head? = some .openBracket
      · obtain ⟨items, more, phrases, rfl, leftmost⟩ := phrase.list_ahead bracket
        rcases items with _ | ⟨item, _ | ⟨next, items⟩⟩
        · show index? self e true (bare (.closeBracket :: (more ++ rest))) = none
          simp only [index?, declines]
        · exact absurd leftmost (unindexed rfl bracket _ _)
        · have bounded : item.1.length < n := by
            simp only [List.map_cons, separated, List.length_cons, List.length_append] at short
            omega
          obtain ⟨others, split⟩ : ∃ others, .openBracket ::
              (separated ((item :: next :: items).map (·.1)) ++ .closeBracket :: more) ++ rest =
                .openBracket :: (item.1 ++ .comma :: others) :=
            ⟨_, by
              simp only [List.map_cons, separated, List.flatMap_cons, List.cons_append, List.append_assoc]
              rfl⟩
          have comma : Next closes (.comma :: others) := by
            rintro _ ⟨⟩
            rfl
          have read := covers (List.forall_mem_cons.mp phrases).1 bounded comma
          rw [split]
          show index? self e true (bare (item.1 ++ .comma :: others)) = none
          simp only [index?, read, bare_cons]
      · obtain ⟨first, behind, rfl, _⟩ := phrase.opens
        cases first with
        | openBracket => exact absurd rfl bracket
        | _ => rfl
  infixed := nofun

theorem suffixes_none (stops : ∀ e, suffix? self e (bare rest) = none) (fuel : Nat) :
    suffixes self fuel e (bare rest) = (e, bare rest) := by
  cases fuel with
  | zero => rfl
  | succ fuel => simp only [suffixes, stops]

/-- A sign is no primary expression. -/
theorem signs_of_primary {tokens mid : List Token} {head : Expr}
    (reads : primary self tokens = some (head, mid)) : signs tokens = ([], tokens) := by
  rcases tokens with _ | ⟨⟨lexeme, s⟩, tokens⟩
  · rfl
  cases lexeme with
  | bang => cases reads
  | operator op => cases reads
  | _ => rfl

/-- One sign more in front of an operand. -/
theorem operand_signed {t : Token} {op : Operator} {tokens rest : List Token}
    (sign : signs (t :: tokens) = ((op, .synthetic) :: (signs tokens).1, (signs tokens).2))
    (reads : operand self tokens = some (e, rest)) (synthetic : e.span = .synthetic) :
    operand self (t :: tokens) = some (.unary .synthetic op e, rest) := by
  unfold operand at reads ⊢
  simp only [sign]
  dsimp only at reads
  split at reads
  · rename_i head mid first
    cases reads
    show some (Expr.unary (Span.synthetic.merge (applySigns _ _).span) op _, _) = _
    rw [synthetic, Span.merge_synthetic]
    rfl
  · cases reads

theorem operand_reads (covers : self.Covers n) {rank : Rank} (phrase : Phrase rank ls e)
    (tight : rank = .operand) (short : ls.length ≤ n) (stops : ∀ e, suffix? self e (bare rest) = none) :
    operand self (bare (ls ++ rest)) = some (e, bare rest) := by
  induction phrase with
  | @ofMember ls e phrase =>
    obtain ⟨head, mid, count, first, counted, run⟩ := member_reads covers phrase rfl short rest
    obtain ⟨fuel, same⟩ := Nat.le.dest (Nat.le_trans (Nat.le_add_right _ _) counted)
    have read : suffixes self mid.length head mid = (e, bare rest) := by
      rw [← same, run, suffixes_none stops]
    simp only [operand, signs_of_primary first, first, read]
    rfl
  | not phrase ih => exact operand_signed rfl (ih tight (Nat.le_of_succ_le short)) phrase.span
  | negate phrase ih => exact operand_signed rfl (ih tight (Nat.le_of_succ_le short)) phrase.span
  | _ => cases tight

end Phrase

end LazyExpr
