import LazyExpr.Machine.Operation

namespace LazyExpr

/-- The integer is a signed one of 64 bits. -/
def Word.InRange (n : Int) : Prop := -9223372036854775808 ≤ n ∧ n ≤ 9223372036854775807

/-- What an operation comes to whose exact result is this integer: the result itself if a word holds it, and an
overflow otherwise. -/
inductive ExactOrRefused (n : Int) : Outcome Value → Prop
  | exact {w : Word} : w.toInt = n → ExactOrRefused n (.ok (.int w))
  | refused : ¬ Word.InRange n → ExactOrRefused n (.error .overflow)

/-- What the remainder of two integers comes to. No remainder is too large for a word, but the quotient of the least
word and `-1` is, and their remainder is refused together with it. -/
inductive RemainderOrRefused (l r : Word) : Outcome Value → Prop
  | exact {w : Word} : r ≠ 0 → ¬ (l = Int64.minValue ∧ r = -1) → w.toInt = l.toInt.tmod r.toInt →
      RemainderOrRefused l r (.ok (.int w))
  | byZero : r = 0 → RemainderOrRefused l r (.error .divisionByZero)
  | refused : l = Int64.minValue → r = -1 → RemainderOrRefused l r (.error .overflow)

namespace Word

theorem ofInt?_isSome_iff {n : Int} : (Word.ofInt? n).isSome ↔ Word.InRange n := by
  rw [Option.isSome_iff_exists]
  constructor
  · rintro ⟨w, found⟩
    exact ofInt?_eq_some_iff.mp found ▸ w.bounds
  · intro inRange
    exact ⟨Int64.ofInt n, if_pos inRange⟩

theorem ofInt?_of_natAbs_lt {n : Int} (small : n.natAbs < 9223372036854775808) : (Word.ofInt? n).isSome := by
  rw [ofInt?_isSome_iff, InRange]
  omega

/-- A divisor of at least two in size halves the dividend. -/
theorem natAbs_quotient_lt (l : Word) {r : Word} (one : r ≠ 1) (minusOne : r ≠ -1) :
    (l.toInt.tdiv r.toInt).natAbs < 9223372036854775808 := by
  have size := l.natAbs_le
  have notOne : r.toInt ≠ 1 := fun same => one (Int64.toInt_inj.mp same)
  have notMinusOne : r.toInt ≠ -1 := fun same => minusOne (Int64.toInt_inj.mp same)
  rw [Int.natAbs_tdiv]
  change l.toInt.natAbs / r.toInt.natAbs < 9223372036854775808
  by_cases zero : r.toInt.natAbs = 0
  · rw [zero, Nat.div_zero]
    decide
  · have half : l.toInt.natAbs / r.toInt.natAbs ≤ l.toInt.natAbs / 2 := Nat.div_le_div_left (by omega) (by decide)
    omega

/-- Only the quotient of the least word and `-1` does not fit a word. -/
theorem quotient_fits_iff (l r : Word) :
    (Word.ofInt? (l.toInt.tdiv r.toInt)).isSome ↔ ¬ (l = Int64.minValue ∧ r = -1) := by
  by_cases extreme : l = Int64.minValue ∧ r = -1
  · obtain ⟨rfl, rfl⟩ := extreme
    decide
  · refine iff_of_true ?_ extreme
    by_cases minusOne : r = -1
    · obtain ⟨k, negation⟩ := exists_neg fun least => extreme ⟨least, minusOne⟩
      have same : l.toInt.tdiv (-1 : Word).toInt = -l.toInt :=
        (Int.tdiv_neg l.toInt 1).trans (congrArg Int.neg (Int.tdiv_one l.toInt))
      rw [minusOne, same, ofInt?_eq_some_iff.mpr negation]
      rfl
    · by_cases one : r = 1
      · have same : l.toInt.tdiv (1 : Word).toInt = l.toInt := Int.tdiv_one l.toInt
        rw [one, same, ofInt?_eq_some_iff.mpr rfl]
        rfl
      · exact ofInt?_of_natAbs_lt (natAbs_quotient_lt l one minusOne)

theorem remainder_fits (l : Word) {r : Word} (divisor : r ≠ 0) : (Word.ofInt? (l.toInt.tmod r.toInt)).isSome := by
  have nonzero : r.toInt ≠ 0 := fun same => divisor (Int64.toInt_inj.mp same)
  have below : l.toInt.natAbs % r.toInt.natAbs < r.toInt.natAbs := Nat.mod_lt _ (Int.natAbs_pos.mpr nonzero)
  refine ofInt?_of_natAbs_lt ?_
  rw [Int.natAbs_tmod]
  exact Nat.lt_of_lt_of_le below r.natAbs_le

end Word

theorem Value.ofWord_exactOrRefused (n : Int) : ExactOrRefused n (Value.ofWord (Word.ofInt? n)) := by
  cases found : Word.ofInt? n with
  | some w => exact .exact (Word.ofInt?_eq_some_iff.mp found)
  | none =>
    refine .refused fun inRange => ?_
    have fits := Word.ofInt?_isSome_iff.mpr inRange
    rw [found] at fits
    cases fits

namespace Operator

theorem remainder_words (l r : Word) : RemainderOrRefused l r (remainder.applyBinary (.int l) (.int r)) := by
  change RemainderOrRefused l r (if r = 0 then .error .divisionByZero else Value.ofWord (Word.rem? l r))
  by_cases zero : r = 0
  · rw [if_pos zero]
    exact .byZero zero
  · rw [if_neg zero, Word.rem?]
    by_cases extreme : l = Int64.minValue ∧ r = -1
    · rw [if_neg fun fits => (Word.quotient_fits_iff l r).mp fits extreme]
      exact .refused extreme.1 extreme.2
    · rw [if_pos ((Word.quotient_fits_iff l r).mpr extreme)]
      obtain ⟨w, found⟩ := Option.isSome_iff_exists.mp (Word.remainder_fits l zero)
      rw [found]
      exact .exact zero extreme (Word.ofInt?_eq_some_iff.mp found)

/-- Arithmetic on integers is exact or refused. A sum, a difference, a product or a negative is refused with an
overflow exactly if no word holds it. A remainder is refused for the divisor zero, as a division by zero, and for
the least word and the divisor `-1`, as an overflow, and given for all other words. -/
theorem words_exact_or_refused (l r : Word) :
    ExactOrRefused (l.toInt + r.toInt) (plus.applyBinary (.int l) (.int r)) ∧
    ExactOrRefused (l.toInt - r.toInt) (minus.applyBinary (.int l) (.int r)) ∧
    ExactOrRefused (l.toInt * r.toInt) (times.applyBinary (.int l) (.int r)) ∧
    ExactOrRefused (-l.toInt) (negate.applyUnary (.int l)) ∧
    RemainderOrRefused l r (remainder.applyBinary (.int l) (.int r)) :=
  ⟨Value.ofWord_exactOrRefused _, Value.ofWord_exactOrRefused _, Value.ofWord_exactOrRefused _,
    Value.ofWord_exactOrRefused _, remainder_words l r⟩

/-- The least word has the remainder zero by `-1`, which a word holds, and yet it is refused. -/
theorem least_remainder_refused :
    ¬ ExactOrRefused (Int64.minValue.toInt.tmod (-1 : Word).toInt)
      (remainder.applyBinary (.int Int64.minValue) (.int (-1))) := by
  have refused : remainder.applyBinary (.int Int64.minValue) (.int (-1)) = .error .overflow := rfl
  have inRange : Word.InRange (Int64.minValue.toInt.tmod (-1 : Word).toInt) := ⟨by decide, by decide⟩
  rw [refused]
  intro claimed
  cases claimed with
  | refused large => exact large inRange

end Operator

end LazyExpr
