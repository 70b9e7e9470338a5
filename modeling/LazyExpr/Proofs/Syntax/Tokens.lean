import LazyExpr.Proofs.Syntax.Splits

namespace LazyExpr

/-- What every lexeme of a text observes: names are identifiers, and operators stand between operands. -/
def Lexeme.WellFormed : Lexeme → Prop
  | word name => IsWord name
  | ref _ name => IsWord name
  | operator op => op.arity = 2
  | _ => True

theorem Lexeme.MadeOf.wellFormed {lexeme : Lexeme} {taken : List Char} (made : lexeme.MadeOf taken) :
    lexeme.WellFormed := by
  cases made with
  | word name => exact name
  | numeral | quoted => trivial
  | ref _ name => exact name
  | mark mark => cases lexeme <;> first | exact mark | trivial

theorem byteSize_append (a b : List Char) : byteSize (a ++ b) = byteSize a + byteSize b := by
  induction a with
  | nil => rw [List.nil_append, byteSize, Nat.zero_add]
  | cons c a ih => rw [List.cons_append, byteSize, byteSize, ih, Nat.add_assoc]

theorem byteSize_pos {cs : List Char} (some : cs ≠ []) : 0 < byteSize cs := by
  cases cs with
  | nil => exact absurd rfl some
  | cons c cs => exact Nat.add_pos_left c.utf8Size_pos _

/-- These characters stand at the span in a text that starts at byte `here`. -/
def Span.Covers (s : Span) (here : Nat) (source word : List Char) : Prop :=
  ∃ left right, source = left ++ word ++ right ∧ s = ⟨here + byteSize left, here + byteSize left + byteSize word⟩

theorem Span.Covers.start_ge {s : Span} {here : Nat} {source word : List Char}
    (covers : s.Covers here source word) :
    here ≤ s.start := by
  obtain ⟨left, right, _, rfl⟩ := covers
  exact Nat.le_add_right _ _

/-- In a longer text the same characters stand at the same span. -/
theorem Span.Covers.behind {s : Span} {here : Nat} {front rest word : List Char}
    (covers : s.Covers (here + byteSize front) rest word) : s.Covers here (front ++ rest) word := by
  obtain ⟨left, right, rfl, rfl⟩ := covers
  refine ⟨front ++ left, right, ?_, ?_⟩
  · rw [List.append_assoc, List.append_assoc, List.append_assoc]
  · rw [byteSize_append, Nat.add_assoc here]

/-- A part of the characters stands that far inside the span. -/
theorem Span.Covers.part {s : Span} {here : Nat} {source front word back : List Char}
    (covers : s.Covers here source (front ++ word ++ back)) :
    Span.Covers ⟨s.start + byteSize front, s.start + byteSize front + byteSize word⟩ here source word := by
  obtain ⟨left, right, rfl, rfl⟩ := covers
  refine ⟨left ++ front, back ++ right, ?_, ?_⟩
  · simp only [List.append_assoc]
  · dsimp only
    rw [@byteSize_append left front, Nat.add_assoc here]

/-- Each token stands at its span in the text. -/
theorem Token.scan?_covers {fuel here : Nat} {cs : List Char} {tokens : List Token}
    (scan : Token.scan? fuel here cs = some tokens) :
    ∀ t ∈ tokens, ∃ word, t.lexeme.MadeOf word ∧ t.span.Covers here cs word := by
  fun_induction Token.scan? fuel here cs generalizing tokens with
  | case1 => cases scan; nofun
  | case2 => cases scan
  | case3 fuel here c rest blank ih =>
    intro t member
    obtain ⟨word, made, covers⟩ := ih scan t member
    exact ⟨word, made, @Span.Covers.behind t.span here [c] rest word covers⟩
  | case4 => cases scan
  | case5 fuel here c cs solid lexeme taken rest split stop =>
    rename_i ih
    obtain ⟨more, scanned, same⟩ := Option.map_eq_some_iff.mp scan
    cases same
    obtain ⟨whole, made⟩ := Lexeme.split?_made split
    rw [← whole]
    refine List.forall_mem_cons.mpr ⟨⟨taken, made, [], rest, rfl, rfl⟩, fun t member => ?_⟩
    obtain ⟨word, made, covers⟩ := ih scanned t member
    exact ⟨word, made, covers.behind⟩

/-- The tokens are listed in the order of the text. -/
theorem Token.scan?_ordered {fuel here : Nat} {cs : List Char} {tokens : List Token}
    (scan : Token.scan? fuel here cs = some tokens) : tokens.Pairwise fun a b => a.span.stop ≤ b.span.start := by
  fun_induction Token.scan? fuel here cs generalizing tokens with
  | case1 => cases scan; exact .nil
  | case2 => cases scan
  | case3 fuel here c rest blank ih => exact ih scan
  | case4 => cases scan
  | case5 fuel here c cs solid lexeme taken rest split stop =>
    rename_i ih
    obtain ⟨more, scanned, same⟩ := Option.map_eq_some_iff.mp scan
    cases same
    refine .cons (fun t member => ?_) (ih scanned)
    obtain ⟨word, _, covers⟩ := Token.scan?_covers scanned t member
    exact covers.start_ge

theorem Token.scan?_wellFormed {fuel here : Nat} {cs : List Char} {tokens : List Token}
    (scan : Token.scan? fuel here cs = some tokens) : ∀ t ∈ tokens, t.lexeme.WellFormed := by
  intro t member
  obtain ⟨word, made, _⟩ := Token.scan?_covers scan t member
  exact made.wellFormed

end LazyExpr
