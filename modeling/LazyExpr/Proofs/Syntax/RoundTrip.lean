import LazyExpr.Proofs.Syntax.Printing
import LazyExpr.Proofs.Syntax.Reading

namespace LazyExpr

open Lexeme (separated)

/-- There is nothing wrong with a token of this lexeme. -/
def Lexeme.Faultless (lexeme : Lexeme) : Prop := ∀ s, Token.fault? ⟨lexeme, s⟩ = none

theorem Lexeme.faultless_numeral {digits : List Char} {value : Value} (read : Numeral.value? digits = some value) :
    Faultless (.numeral digits) := by
  intro s
  simp only [Token.fault?, read]

theorem Lexeme.faultless_ref (scope : Scope) (name : String) : Faultless (.ref scope.keyword name) := by
  intro s
  simp only [Token.fault?, Scope.ofKeyword?_keyword]

theorem Lexeme.faultless_items {items : List (List Lexeme × Expr)}
    (faultless : ∀ item ∈ items, ∀ lexeme ∈ item.1, lexeme.Faultless) :
    ∀ lexeme ∈ separated (items.map (·.1)), lexeme.Faultless := by
  refine forall_mem_separated (fun _ => rfl) fun ls member => ?_
  obtain ⟨item, among, rfl⟩ := List.mem_map.mp member
  exact faultless item among

theorem Phrase.faultless {rank : Rank} {ls : List Lexeme} {e : Expr} (phrase : Phrase rank ls e) :
    ∀ lexeme ∈ ls, lexeme.Faultless := by
  induction phrase with
  | null | undefined | bool | quoted => exact List.forall_mem_singleton.mpr fun _ => rfl
  | numeral read => exact List.forall_mem_singleton.mpr (Lexeme.faultless_numeral read)
  | ref scope name => exact List.forall_mem_singleton.mpr (Lexeme.faultless_ref scope name)
  | list _ ih =>
    exact List.forall_mem_cons.mpr ⟨fun _ => rfl, List.forall_mem_append.mpr
      ⟨Lexeme.faultless_items ih, List.forall_mem_singleton.mpr fun _ => rfl⟩⟩
  | call _ _ ih =>
    exact List.forall_mem_cons.mpr ⟨fun _ => rfl, List.forall_mem_cons.mpr ⟨fun _ => rfl,
      List.forall_mem_append.mpr ⟨Lexeme.faultless_items ih, List.forall_mem_singleton.mpr fun _ => rfl⟩⟩⟩
  | parens _ ih =>
    exact List.forall_mem_cons.mpr ⟨fun _ => rfl, List.forall_mem_append.mpr
      ⟨ih, List.forall_mem_singleton.mpr fun _ => rfl⟩⟩
  | ofPrimary _ ih | ofMember _ ih | ofOperand _ _ ih | ofChain _ ih => exact ih
  | field name safe _ ih =>
    refine List.forall_mem_append.mpr ⟨ih, List.forall_mem_cons.mpr
      ⟨?_, List.forall_mem_singleton.mpr fun _ => rfl⟩⟩
    cases safe <;> exact fun _ => rfl
  | index safe _ _ ihBase ihKey =>
    refine List.forall_mem_append.mpr ⟨ihBase, List.forall_mem_append.mpr ⟨?_, List.forall_mem_append.mpr
      ⟨ihKey, List.forall_mem_singleton.mpr fun _ => rfl⟩⟩⟩
    cases safe with
    | false => exact List.forall_mem_singleton.mpr fun _ => rfl
    | true => exact List.forall_mem_cons.mpr ⟨fun _ => rfl, List.forall_mem_singleton.mpr fun _ => rfl⟩
  | assert _ ih => exact List.forall_mem_append.mpr ⟨ih, List.forall_mem_singleton.mpr fun _ => rfl⟩
  | not _ ih | negate _ ih => exact List.forall_mem_cons.mpr ⟨fun _ => rfl, ih⟩
  | binary _ _ _ _ ihLeft ihRight =>
    exact List.forall_mem_append.mpr ⟨ihLeft, List.forall_mem_cons.mpr ⟨fun _ => rfl, ihRight⟩⟩
  | choose _ _ _ _ ih ihYes ihNo =>
    exact List.forall_mem_append.mpr ⟨ih, List.forall_mem_cons.mpr ⟨fun _ => rfl, List.forall_mem_append.mpr
      ⟨ihYes, List.forall_mem_cons.mpr ⟨fun _ => rfl, ihNo⟩⟩⟩⟩

/-- A text whose tokens are a phrase of an expression is read as that expression, apart from spans. -/
theorem Phrase.read {text : String} {tokens : List Token} {e : Expr}
    (scanned : Token.all? text.toList = some tokens)
    (phrase : Phrase .whole (tokens.map (·.lexeme)) e) :
    ∃ found, LazyExpr.read text = .ok found ∧ found.withoutSpans = e := by
  have faultless : tokens.findSome? Token.fault? = none :=
    List.findSome?_eq_none_iff.mpr fun t member => phrase.faultless _ (List.mem_map_of_mem member) t.span
  have whole := Grammar.whole?_erases (byteSize text.toList) tokens
  rw [map_withoutSpan, phrase.whole?_reads] at whole
  obtain ⟨found, read, same⟩ := Option.map_eq_some_iff.mp whole.symm
  exact ⟨found, read_eq_ok_iff.mpr ⟨tokens, match?_eq_some_iff.mpr ⟨scanned, read⟩, faultless⟩, same⟩

/-- A text that spells an expression is read as that expression, apart from spans. -/
theorem Spells.read {text : String} {e : Expr} (spells : Spells .whole text e) :
    ∃ found, LazyExpr.read text = .ok found ∧ found.withoutSpans = e := by
  obtain ⟨ls, writes, phrase⟩ := spells
  obtain ⟨tokens, scanned, rfl⟩ := writes.all?
  exact phrase.read scanned

/-- Printing an expression that was read gives a text that is read as the same expression, apart from spans, if its
doubles are finite. -/
theorem read_print {source : String} {e : Expr} (accepted : read source = .ok e)
    (finite : ∀ x, .float x ∈ e.literals → (Binary.ofFloat x).IsFinite) :
    ∃ again, read e.print = .ok again ∧ again.withoutSpans = e.withoutSpans := by
  have spelled : e.Spelled := (read_readable accepted).spells (Expr.legible_of_finite finite)
  exact spelled.1.whole.read

theorem Binary.ofFloat_three_halves : ofFloat 1.5 = .finite false 6755399441055744 (-52) := by decide +kernel

theorem read_print_signed :
    let e : Expr := .unary ⟨0, 5⟩ .negate (.unary ⟨1, 5⟩ .assertPresent (.literal ⟨1, 4⟩ (.float 1.5)))
    read "-1.5!" = .ok e ∧ (∀ x, .float x ∈ e.literals → (Binary.ofFloat x).IsFinite) ∧
      ∃ again, read e.print = .ok again ∧ again.withoutSpans = e.withoutSpans := by
  intro e
  have accepted : read "-1.5!" = .ok e := rfl
  have finite : ∀ x, .float x ∈ e.literals → (Binary.ofFloat x).IsFinite := by
    intro x member
    rw [Value.float.inj (List.mem_singleton.mp member), Binary.ofFloat_three_halves]
    trivial
  exact ⟨accepted, finite, read_print accepted finite⟩

end LazyExpr
