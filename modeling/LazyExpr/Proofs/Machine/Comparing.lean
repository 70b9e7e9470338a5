import LazyExpr.Machine.Operation
import LazyExpr.Proofs.Number.Nearest

namespace LazyExpr

/-- The comparisons of these integers, equality included, give what the order of the integers says. -/
structure ComparesExactly (a b : Word) : Prop where
  equal : Operator.equal.applyBinary (.int a) (.int b) = .ok (.bool (decide (a.toInt = b.toInt)))
  less : Operator.less.applyBinary (.int a) (.int b) = .ok (.bool (decide (a.toInt < b.toInt)))
  greater : Operator.greater.applyBinary (.int a) (.int b) = .ok (.bool (decide (b.toInt < a.toInt)))
  atMost : Operator.atMost.applyBinary (.int a) (.int b) = .ok (.bool (decide (a.toInt ≤ b.toInt)))
  atLeast : Operator.atLeast.applyBinary (.int a) (.int b) = .ok (.bool (decide (b.toInt ≤ a.toInt)))

namespace Word

variable (a b : Word)

theorem natAbs_lt : a.toInt.natAbs < 2 ^ 64 := Nat.lt_of_le_of_lt a.natAbs_le (by decide)

/-- The doubles of two integers are ordered as the numbers next to these. -/
theorem toFloat_lt_iff : Word.toFloat a < Word.toFloat b ↔ nearest a.toInt < nearest b.toInt := by
  obtain ⟨m, e, finite, value⟩ := ofInt_value a.natAbs_lt
  obtain ⟨m', e', finite', value'⟩ := ofInt_value b.natAbs_lt
  unfold Word.toFloat
  rw [Binary.lt_iff_value finite finite', value, value']
  exact Int.cast_lt

theorem toFloat_le_iff : Word.toFloat a ≤ Word.toFloat b ↔ nearest a.toInt ≤ nearest b.toInt := by
  obtain ⟨m, e, finite, value⟩ := ofInt_value a.natAbs_lt
  obtain ⟨m', e', finite', value'⟩ := ofInt_value b.natAbs_lt
  unfold Word.toFloat
  rw [Binary.le_iff_value finite finite', value, value']
  exact Int.cast_le

end Word

namespace Operator

/-- Only equality looks at the integers themselves. -/
theorem equal_words (a b : Word) :
    equal.applyBinary (.int a) (.int b) = .ok (.bool (decide (a.toInt = b.toInt))) := by
  show Except.ok (Value.bool (decide (a = b))) = _
  rw [decide_eq_decide.mpr Int64.toInt_inj.symm]

theorem less_words (a b : Word) :
    less.applyBinary (.int a) (.int b) = .ok (.bool (decide (nearest a.toInt < nearest b.toInt))) := by
  show Except.ok (Value.bool (decide (Word.toFloat a < Word.toFloat b))) = _
  rw [decide_eq_decide.mpr (a.toFloat_lt_iff b)]

theorem greater_words (a b : Word) :
    greater.applyBinary (.int a) (.int b) = .ok (.bool (decide (nearest b.toInt < nearest a.toInt))) := by
  show Except.ok (Value.bool (decide (Word.toFloat b < Word.toFloat a))) = _
  rw [decide_eq_decide.mpr (b.toFloat_lt_iff a)]

theorem atMost_words (a b : Word) :
    atMost.applyBinary (.int a) (.int b) = .ok (.bool (decide (nearest a.toInt ≤ nearest b.toInt))) := by
  show Except.ok (Value.bool (decide (Word.toFloat a ≤ Word.toFloat b))) = _
  rw [decide_eq_decide.mpr (a.toFloat_le_iff b)]

theorem atLeast_words (a b : Word) :
    atLeast.applyBinary (.int a) (.int b) = .ok (.bool (decide (nearest b.toInt ≤ nearest a.toInt))) := by
  show Except.ok (Value.bool (decide (Word.toFloat b ≤ Word.toFloat a))) = _
  rw [decide_eq_decide.mpr (b.toFloat_le_iff a)]

end Operator

variable {a b : Word}

/-- Rounding can only make integers equal. -/
theorem nearest_lt_iff (apart : nearest a.toInt = nearest b.toInt → a = b) :
    nearest a.toInt < nearest b.toInt ↔ a.toInt < b.toInt := by
  constructor
  · intro below
    by_contra above
    exact absurd (nearest_mono (Int.not_lt.mp above)) (Int.not_le.mpr below)
  · intro below
    refine lt_of_le_of_ne (nearest_mono below.le) fun same => ?_
    rw [apart same] at below
    exact lt_irrefl _ below

theorem comparesExactly_of_apart (apart : nearest a.toInt = nearest b.toInt → a = b) : ComparesExactly a b := by
  have less := nearest_lt_iff apart
  have greater : nearest b.toInt < nearest a.toInt ↔ b.toInt < a.toInt :=
    nearest_lt_iff fun same => (apart same.symm).symm
  have atMost : nearest a.toInt ≤ nearest b.toInt ↔ a.toInt ≤ b.toInt := by
    rw [← not_lt, greater, not_lt]
  have atLeast : nearest b.toInt ≤ nearest a.toInt ↔ b.toInt ≤ a.toInt := by
    rw [← not_lt, less, not_lt]
  refine ⟨Operator.equal_words a b, ?_, ?_, ?_, ?_⟩
  · rw [Operator.less_words, decide_eq_decide.mpr less]
  · rw [Operator.greater_words, decide_eq_decide.mpr greater]
  · rw [Operator.atMost_words, decide_eq_decide.mpr atMost]
  · rw [Operator.atLeast_words, decide_eq_decide.mpr atLeast]

/-- Integers of no more than 53 bits are compared exactly. -/
theorem comparesExactly_of_small (small : a.toInt.natAbs < 2 ^ 53) (small' : b.toInt.natAbs < 2 ^ 53) :
    ComparesExactly a b := by
  refine comparesExactly_of_apart fun same => ?_
  rw [nearest_of_small small, nearest_of_small small'] at same
  exact Int64.toInt_inj.mp same

/-- Two integers are compared exactly unless they are different integers with one double next to both. -/
theorem compares_exactly_iff (a b : Word) :
    ComparesExactly a b ↔ (nearest a.toInt = nearest b.toInt → a = b) := by
  constructor
  · intro exact same
    have notLess : ¬ a.toInt < b.toInt := by
      have less := exact.less
      rw [Operator.less_words, same, decide_eq_false (lt_irrefl _)] at less
      simpa using less
    have notGreater : ¬ b.toInt < a.toInt := by
      have greater := exact.greater
      rw [Operator.greater_words, same, decide_eq_false (lt_irrefl _)] at greater
      simpa using greater
    exact Int64.toInt_inj.mp (Int.le_antisymm (Int.not_lt.mp notGreater) (Int.not_lt.mp notLess))
  · exact comparesExactly_of_apart

/-- Just behind `2 ^ 53` an integer is neither less nor greater than the next one, and not equal to it. -/
theorem not_compares_exactly : ¬ ComparesExactly 9007199254740992 9007199254740993 := by
  intro exact
  have less : decide (Word.toFloat 9007199254740992 < Word.toFloat 9007199254740993) = false := by decide +kernel
  have compared : Operator.less.applyBinary (.int 9007199254740992) (.int 9007199254740993) =
      .ok (.bool (decide (Word.toFloat 9007199254740992 < Word.toFloat 9007199254740993))) := rfl
  have differs := exact.less
  rw [compared, less] at differs
  cases differs

end LazyExpr
