import Mathlib
import LazyExpr.Proofs.Number.Overflow
import LazyExpr.Proofs.Syntax.RoundTrip

namespace LazyExpr

/-- The number that a numeral writes down. -/
def Numeral.exact (cs : List Char) : ℚ :=
  Numeral.ofDigits (cs.filter (· ≠ '.')) / 10 ^ ((cs.dropWhile (· ≠ '.')).length - 1)

namespace Numeral

theorem exact_pointed {digits places : List Char} (whole : ∀ c ∈ digits, c.isDigit)
    (tail : ∀ c ∈ places, c.isDigit) :
    exact (digits ++ '.' :: places) = ofDigits (digits ++ places) / 10 ^ places.length := by
  have plain {ds : List Char} (all : ∀ c ∈ ds, c.isDigit) : ∀ c ∈ ds, decide (c ≠ '.') = true := fun c member =>
    decide_eq_true (digit_ne_point (all c member))
  have kept : (digits ++ '.' :: places).filter (· ≠ '.') = digits ++ places := by
    rw [List.filter_append, List.filter_eq_self.mpr (plain whole), List.filter_cons_of_neg (by decide),
      List.filter_eq_self.mpr (plain tail)]
  have behind : (digits ++ '.' :: places).dropWhile (· ≠ '.') = '.' :: places := by
    rw [List.dropWhile_append_of_pos (plain whole)]
    rfl
  rw [exact, kept, behind]
  rfl

/-- A numeral without a point stands for an integer. With a point it stands for a double, which is finite as long as
what is written is below the overflow. -/
theorem value?_stores {cs : List Char} (numeral : IsNumeral cs) {v : Value} (value : value? cs = some v) :
    '.' ∉ cs ∧ (∃ n, v = .int n) ∨ '.' ∈ cs ∧ ∃ x, v = .float x ∧ Stores (exact cs) x := by
  cases numeral with
  | whole _ digits =>
    rw [value?_digits digits, Option.map_eq_some_iff] at value
    obtain ⟨n, _, same⟩ := value
    exact .inl ⟨not_mem_point digits, n, same.symm⟩
  | pointed _ whole _ tail =>
    rw [value?_pointed whole, Option.some.injEq] at value
    refine .inr ⟨List.mem_append_right _ List.mem_cons_self, _, value.symm, ?_⟩
    rw [exact_pointed whole tail]
    exact ofScientific_stores _ _

end Numeral

/-- A numeral on its own is read as the literal of what it stands for. -/
theorem read_numeral {cs : List Char} (numeral : IsNumeral cs) : ∃ s, read (String.ofList cs) =
    match Numeral.value? cs with
    | some v => .ok (.literal s v)
    | none => .error (.numeral s (String.ofList cs)) := by
  have ends : (Lexeme.numeral cs).Ends [] := ⟨by rintro _ ⟨⟩, by rintro _ _ _ ⟨⟩⟩
  have split := Lexeme.split?_numeral numeral ends
  rw [List.append_nil] at split
  obtain ⟨tokens, scanned, lexemes⟩ := (Lexes.token split .done).all?
  obtain ⟨⟨lexeme, s⟩, rfl, same⟩ := List.map_eq_singleton_iff.mp lexemes
  obtain rfl : lexeme = .numeral cs := same
  have tree : Grammar.whole? (byteSize cs) [⟨.numeral cs, s⟩] = some (Grammar.numeral s cs) := rfl
  have matched : match? (String.ofList cs).toList = some ([⟨.numeral cs, s⟩], Grammar.numeral s cs) := by
    rw [String.toList_ofList]
    exact match?_eq_some_iff.mpr ⟨scanned, tree⟩
  refine ⟨s, ?_⟩
  simp only [read, matched, Grammar.numeral, List.findSome?_singleton, Token.fault?]
  cases Numeral.value? cs <;> rfl

/-- The name of the infinite double is no expression. -/
theorem read_infinite (e : Expr) : read "inf" ≠ .ok e := by
  intro accepted
  obtain ⟨tokens, matched, _⟩ := read_eq_ok_iff.mp accepted
  have unmatched : match? "inf".toList = none := by rfl
  rw [unmatched] at matched
  cases matched

theorem print_infinite (s : Span) {x : Float} (infinite : Binary.ofFloat x = .infinite false) :
    (Expr.literal s (.float x)).print = "inf" := by
  show floatNumeral x = "inf"
  simp only [floatNumeral, floatText, infinite]
  rfl

/-- A literal that prints as an infinite double does is lost. -/
theorem lost_of_overflow {cs : List Char} (numeral : IsNumeral cs) (pointed : '.' ∈ cs)
    (large : overflow ≤ Numeral.exact cs) {v : Value} (value : Numeral.value? cs = some v) (s : Span)
    (again : Expr) :
    read (Expr.literal s v).print ≠ .ok again := by
  rcases Numeral.value?_stores numeral value with ⟨unpointed, _⟩ | ⟨_, x, rfl, stores⟩
  · exact absurd pointed unpointed
  · cases stores with
    | finite _ _ _ small => exact absurd small (not_lt.mpr large)
    | infinite infinite =>
      rw [print_infinite s infinite]
      exact read_infinite again

/-- The literal of a numeral is printed as a text that is read as a literal of the same value, unless the numeral is
a decimal at or beyond the overflow. What is printed for such a one is no expression. -/
theorem read_print_numeral {cs : List Char} (numeral : IsNumeral cs) {e : Expr}
    (accepted : read (String.ofList cs) = .ok e) :
    ∃ s v, e = .literal s v ∧ Numeral.value? cs = some v ∧
      (('.' ∈ cs → Numeral.exact cs < overflow) → ∃ s', read e.print = .ok (.literal s' v)) ∧
      ('.' ∈ cs → overflow ≤ Numeral.exact cs → ∀ again, read e.print ≠ .ok again) := by
  obtain ⟨s, read⟩ := read_numeral numeral
  rw [accepted] at read
  cases value : Numeral.value? cs with
  | none =>
    rw [value] at read
    cases read
  | some v =>
    rw [value] at read
    cases read
    refine ⟨s, v, rfl, rfl, fun small => ?_, fun pointed large => lost_of_overflow numeral pointed large value s⟩
    have finite : ∀ x, .float x ∈ (Expr.literal s v).literals → (Binary.ofFloat x).IsFinite := by
      intro x member
      cases List.mem_singleton.mp member
      rcases Numeral.value?_stores numeral value with ⟨_, n, same⟩ | ⟨pointed, y, same, stores⟩
      · cases same
      · cases same
        cases stores with
        | finite m e decoded =>
          rw [decoded]
          trivial
        | infinite _ large => exact absurd (small pointed) (not_lt.mpr large)
    have spelled := (read_readable accepted).spells (Expr.legible_of_finite finite)
    obtain ⟨again, read, same⟩ := spelled.1.whole.read
    cases again <;> cases same
    exact ⟨_, read⟩

theorem read_print_numeral_half :
    let cs := ['0', '.', '5', '0']
    IsNumeral cs ∧ ∃ e, read (String.ofList cs) = .ok e ∧ ∃ s v, e = .literal s v ∧ Numeral.value? cs = some v ∧
      (('.' ∈ cs → Numeral.exact cs < overflow) → ∃ s', read e.print = .ok (.literal s' v)) ∧
      ('.' ∈ cs → overflow ≤ Numeral.exact cs → ∀ again, read e.print ≠ .ok again) := by
  intro cs
  have digits {ds : List Char} (all : ds.all Char.isDigit = true) : ∀ c ∈ ds, c.isDigit := List.all_eq_true.mp all
  have whole : ∀ c ∈ ['0'], c.isDigit := digits rfl
  have numeral : IsNumeral cs := .pointed (List.cons_ne_nil _ _) whole (List.cons_ne_nil '5' ['0']) (digits rfl)
  have value : Numeral.value? cs = some _ := Numeral.value?_pointed whole ['5', '0']
  obtain ⟨s, accepted⟩ := read_numeral numeral
  rw [value] at accepted
  exact ⟨numeral, _, accepted, read_print_numeral numeral accepted⟩

/-- A one with 309 zeros and a point behind it is read as the infinite double, and what is printed for that cannot
be read. -/
theorem numeral_not_printed :
    let cs := '1' :: List.replicate 309 '0' ++ ['.', '0']
    IsNumeral cs ∧ ∃ s v, read (String.ofList cs) = .ok (.literal s v) ∧
      ∀ again, read (Expr.literal s v).print ≠ .ok again := by
  intro cs
  have digits {ds : List Char} (all : ds.all Char.isDigit = true) : ∀ c ∈ ds, c.isDigit := List.all_eq_true.mp all
  have whole : ∀ c ∈ '1' :: List.replicate 309 '0', c.isDigit := digits (by decide +kernel)
  have tail : ∀ c ∈ ['0'], c.isDigit := digits rfl
  have numeral : IsNumeral cs := .pointed (List.cons_ne_nil _ _) whole (List.cons_ne_nil _ _) tail
  have written : Numeral.ofDigits ('1' :: List.replicate 309 '0' ++ ['0']) = 10 ^ 310 := by decide +kernel
  have large : overflow ≤ Numeral.exact cs := by
    have exact : Numeral.exact cs = _ := Numeral.exact_pointed whole tail
    rw [exact, written]
    have powers : 2 ^ 1024 * 10 ≤ 10 ^ 310 := by decide +kernel
    refine overflow_le_of_pow ?_
    rw [List.length_singleton, pow_one, le_div_iff₀ (by norm_num)]
    exact_mod_cast powers
  have value : Numeral.value? cs = some _ := Numeral.value?_pointed whole ['0']
  obtain ⟨s, accepted⟩ := read_numeral numeral
  rw [value] at accepted
  exact ⟨numeral, s, _, accepted,
    lost_of_overflow numeral (List.mem_append_right _ List.mem_cons_self) large value s⟩

end LazyExpr
