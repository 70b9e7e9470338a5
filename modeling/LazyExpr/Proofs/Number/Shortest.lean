import Mathlib
import LazyExpr.Number.Shortest
import LazyExpr.Proofs.Number.Rounding

namespace LazyExpr

/-- The number that a decimal is. -/
def Decimal.value (d : Decimal) : ℚ := d.digits * 10 ^ d.exponent

theorem Decimal.value_trim_go (fuel : ℕ) (d : Decimal) : (trim.go fuel d).value = d.value := by
  induction fuel generalizing d with
  | zero => rfl
  | succ fuel ih =>
    rw [trim.go]
    split
    · rename_i whole
      rw [ih]
      have split : (d.digits : ℚ) = 10 * (d.digits / 10 : ℕ) := by
        have exact := Nat.div_add_mod d.digits 10
        rw [whole.1, Nat.add_zero] at exact
        exact_mod_cast exact.symm
      simp only [value]
      rw [split, zpow_add_one₀ (by norm_num)]
      ring
    · rfl

/-- Trailing zeros do not count. -/
theorem Decimal.value_trim (d : Decimal) : d.trim.value = d.value := Decimal.value_trim_go _ d

theorem pow_le_of_length {n : ℕ} (pos : 0 < n) : 10 ^ ((Nat.toDigits 10 n).length - 1) ≤ n := by
  rcases Nat.eq_zero_or_pos ((Nat.toDigits 10 n).length - 1) with one | more
  · rw [one]
    exact pos
  · have longer : ¬ (Nat.toDigits 10 n).length ≤ (Nat.toDigits 10 n).length - 1 := by omega
    rw [Nat.length_toDigits_le_iff (by decide) more] at longer
    exact Nat.le_of_not_lt longer

theorem lt_pow_length (n : ℕ) : n < 10 ^ (Nat.toDigits 10 n).length :=
  (Nat.length_toDigits_le_iff (by decide) Nat.length_toDigits_pos).mp le_rfl

/-- The magnitude is not too large. -/
theorem pow_decimalMagnitude_le {num den : ℕ} (pos : 0 < num) (pos' : 0 < den) :
    (10 : ℚ) ^ (decimalMagnitude num den - 1) ≤ num / den := by
  have nonzero : (10 : ℚ) ≠ 0 := by norm_num
  have pos'' : (0 : ℚ) < den := by exact_mod_cast pos'
  have length := Nat.length_toDigits_pos (b := 10) (n := num)
  have low : (10 : ℚ) ^ ((Nat.toDigits 10 num).length - 1) ≤ num := by exact_mod_cast pow_le_of_length pos
  have high : (den : ℚ) < 10 ^ (Nat.toDigits 10 den).length := by exact_mod_cast lt_pow_length den
  unfold decimalMagnitude
  dsimp only
  generalize gap : ((Nat.toDigits 10 den).length : ℤ) - (Nat.toDigits 10 num).length = g
  split
  · rename_i larger
    have larger' : (den : ℚ) * 10 ^ (-g).toNat ≤ num * 10 ^ g.toNat := by exact_mod_cast larger
    have exponent : (1 - g - 1 : ℤ) = -g := by omega
    rw [exponent, zpow_split nonzero, neg_neg, div_le_div_iff₀ (by positivity) pos'']
    linarith
  · rw [le_div_iff₀ pos'']
    have exponent : (-g - 1 : ℤ) + (Nat.toDigits 10 den).length = ((Nat.toDigits 10 num).length - 1 : ℕ) := by omega
    calc (10 : ℚ) ^ (-g - 1) * den ≤ 10 ^ (-g - 1) * 10 ^ (Nat.toDigits 10 den).length :=
          mul_le_mul_of_nonneg_left high.le (by positivity)
      _ = 10 ^ ((Nat.toDigits 10 num).length - 1) := by
          rw [← zpow_natCast, ← zpow_add₀ nonzero, exponent, zpow_natCast]
      _ ≤ num := low

namespace RoundingRange

variable {r : RoundingRange} {k : ℤ} {n : ℕ}

/-- The number is in the range, and at its ends only if they belong to it. -/
structure Holds (r : RoundingRange) (v : ℚ) : Prop where
  low : (r.low : ℚ) / r.den ≤ v
  high : v ≤ r.high / r.den
  ends : v = r.low / r.den ∨ v = r.high / r.den → r.closed = true

/-- The multiple `n` of `10 ^ k` is in the range. -/
def covers (r : RoundingRange) (k : ℤ) (n : ℕ) : Bool :=
  let up := Nat.pow 10 (-k).toNat
  let step := r.den * Nat.pow 10 k.toNat
  if r.closed then r.low * up ≤ n * step && n * step ≤ r.high * up
  else r.low * up < n * step && n * step < r.high * up

theorem le_grid_iff {den : ℕ} (pos : 0 < den) (b n : ℕ) (k : ℤ) :
    (b : ℚ) / den ≤ n * 10 ^ k ↔ b * 10 ^ (-k).toNat ≤ n * (den * 10 ^ k.toNat) := by
  have pos' : (0 : ℚ) < den := by exact_mod_cast pos
  have up : (0 : ℚ) < 10 ^ (-k).toNat := by positivity
  rw [zpow_split (by norm_num), ← mul_div_assoc, div_le_div_iff₀ pos' up, ← @Nat.cast_le ℚ]
  push_cast
  rw [mul_comm (den : ℚ), mul_assoc]

theorem grid_le_iff {den : ℕ} (pos : 0 < den) (b n : ℕ) (k : ℤ) :
    n * 10 ^ k ≤ (b : ℚ) / den ↔ n * (den * 10 ^ k.toNat) ≤ b * 10 ^ (-k).toNat := by
  have pos' : (0 : ℚ) < den := by exact_mod_cast pos
  have up : (0 : ℚ) < 10 ^ (-k).toNat := by positivity
  rw [zpow_split (by norm_num), ← mul_div_assoc, div_le_div_iff₀ up pos', ← @Nat.cast_le ℚ]
  push_cast
  rw [mul_comm (den : ℚ), mul_assoc]

theorem Holds.of_lt {v : ℚ} (low : (r.low : ℚ) / r.den < v) (high : v < r.high / r.den) : r.Holds v := by
  refine ⟨low.le, high.le, ?_⟩
  rintro (same | same) <;> linarith

theorem covers_iff (pos : 0 < r.den) : r.covers k n = true ↔ r.Holds (n * 10 ^ k) := by
  have low := le_grid_iff pos r.low n k
  have high := grid_le_iff pos r.high n k
  have low' := not_congr (grid_le_iff pos r.low n k)
  have high' := not_congr (le_grid_iff pos r.high n k)
  rw [not_le, not_le] at low' high'
  show (if r.closed then decide (r.low * 10 ^ (-k).toNat ≤ n * (r.den * 10 ^ k.toNat)) &&
      decide (n * (r.den * 10 ^ k.toNat) ≤ r.high * 10 ^ (-k).toNat)
    else decide (r.low * 10 ^ (-k).toNat < n * (r.den * 10 ^ k.toNat)) &&
      decide (n * (r.den * 10 ^ k.toNat) < r.high * 10 ^ (-k).toNat)) = true ↔ _
  cases closed : r.closed with
  | true =>
    rw [if_pos rfl, Bool.and_eq_true, decide_eq_true_eq, decide_eq_true_eq, ← low, ← high]
    exact ⟨fun inside => ⟨inside.1, inside.2, fun _ => closed⟩, fun holds => ⟨holds.low, holds.high⟩⟩
  | false =>
    rw [if_neg nofun, Bool.and_eq_true, decide_eq_true_eq, decide_eq_true_eq, ← low', ← high']
    refine ⟨fun inside => .of_lt inside.1 inside.2, fun holds => ?_⟩
    have inner := mt holds.ends (by rw [closed]; exact nofun)
    rw [not_or] at inner
    exact ⟨lt_of_le_of_ne holds.low (Ne.symm inner.1), lt_of_le_of_ne holds.high inner.2⟩

theorem onGrid?_eq (r : RoundingRange) (k : ℤ) :
    r.onGrid? k =
      let up := Nat.pow 10 (-k).toNat
      let step := r.den * Nat.pow 10 k.toNat
      let floor := r.value * up / step
      let nearerAbove := (floor + 1) * step - r.value * up ≤ r.value * up - floor * step
      if r.covers k (floor + 1) && (nearerAbove || !r.covers k floor) then some ⟨floor + 1, k⟩
      else if r.covers k floor then some ⟨floor, k⟩
      else none := rfl

/-- A decimal that is found is in the range. -/
theorem holds_of_onGrid? (pos : 0 < r.den) {d : Decimal} (found : r.onGrid? k = some d) : r.Holds d.value := by
  rw [onGrid?_eq] at found
  dsimp only at found
  split at found
  · rename_i above
    cases found
    exact (covers_iff pos).mp (Bool.and_eq_true_iff.mp above).1
  · split at found
    · rename_i below
      cases found
      exact (covers_iff pos).mp below
    · cases found

/-- On a grid that is finer than the range one is found. -/
theorem onGrid?_isSome (pos : 0 < r.den) (low : r.low < r.value) (high : r.value < r.high)
    (fine : (10 : ℚ) ^ k < (r.high - r.low) / r.den) : (r.onGrid? k).isSome := by
  have pos' : (0 : ℚ) < r.den := by exact_mod_cast pos
  have low' : (r.low : ℚ) / r.den < r.value / r.den := by gcongr
  have high' : (r.value : ℚ) / r.den < r.high / r.den := by gcongr
  rw [sub_div] at fine
  have step : 0 < r.den * 10 ^ k.toNat := by positivity
  generalize floored : r.value * 10 ^ (-k).toNat / (r.den * 10 ^ k.toNat) = floor
  have under : (floor : ℚ) * 10 ^ k ≤ r.value / r.den := by
    rw [grid_le_iff pos, ← floored]
    exact Nat.div_mul_le_self _ _
  have beyond : (r.value : ℚ) / r.den < (floor + 1 : ℕ) * 10 ^ k := by
    rw [← not_le, grid_le_iff pos, not_le, ← Nat.div_lt_iff_lt_mul step, floored]
    exact Nat.lt_succ_self floor
  have near : r.covers k floor = true ∨ r.covers k (floor + 1) = true := by
    rw [covers_iff pos, covers_iff pos]
    by_cases inside : (r.low : ℚ) / r.den < floor * 10 ^ k
    · exact .inl (.of_lt inside (under.trans_lt high'))
    · refine .inr (.of_lt (low'.trans beyond) ?_)
      push_cast
      linarith
  have floored' : r.value * Nat.pow 10 (-k).toNat / (r.den * Nat.pow 10 k.toNat) = floor := floored
  rw [onGrid?_eq]
  dsimp only
  rw [floored']
  split
  · rfl
  · split
    · rfl
    · rename_i notAbove notBelow
      rcases near with below | above
      · exact absurd below notBelow
      · simp [above, notBelow] at notAbove

section

variable {m : ℕ} {e : ℤ}

theorem den_of_pos (m : ℕ) (e : ℤ) : 0 < (RoundingRange.of m e).den := by
  show 0 < 4 <<< (-e).toNat
  rw [Nat.shiftLeft_eq]
  positivity

/-- Quarters of the lowest bit, as the range counts them. -/
theorem quarters (n : ℕ) (e : ℤ) :
    ((n * 1 <<< e.toNat : ℕ) : ℚ) / (4 <<< (-e).toNat : ℕ) = n / 4 * 2 ^ e := by
  rw [Nat.shiftLeft_eq, Nat.shiftLeft_eq, zpow_split two_ne_zero]
  push_cast
  field_simp

theorem value_of (m : ℕ) (e : ℤ) : ((RoundingRange.of m e).value : ℚ) / (RoundingRange.of m e).den = m * 2 ^ e := by
  have value := quarters (4 * m) e
  push_cast at value
  rw [mul_div_cancel_left₀ _ (by norm_num)] at value
  exact_mod_cast value

theorem high_of (m : ℕ) (e : ℤ) :
    ((RoundingRange.of m e).high : ℚ) / (RoundingRange.of m e).den = (m + 1 / 2) * 2 ^ e := by
  have value := quarters (4 * m + 2) e
  have share : (((4 * m + 2 : ℕ) : ℚ)) / 4 = m + 1 / 2 := by
    push_cast
    ring
  rw [share] at value
  exact value

theorem low_of (pos : 0 < m) (e : ℤ) :
    ((RoundingRange.of m e).low : ℚ) / (RoundingRange.of m e).den = (m - lowerReach m e) * 2 ^ e := by
  have value := quarters (4 * m - if m = Binary.leadingBit ∧ -1074 < e then 1 else 2) e
  have share :
      (((4 * m - if m = Binary.leadingBit ∧ -1074 < e then 1 else 2 : ℕ) : ℚ)) / 4 = m - lowerReach m e := by
    unfold lowerReach
    rw [Binary.leadingBit_eq]
    split
    · rw [Nat.cast_sub (by omega)]
      push_cast
      ring
    · rw [Nat.cast_sub (by omega)]
      push_cast
      ring
  rw [share] at value
  exact value

/-- The range of a double holds the numbers that reach it. -/
theorem Holds.reaches {v : ℚ} (pos : 0 < m) (holds : (RoundingRange.of m e).Holds v) : Reaches v m e := by
  obtain ⟨low, high, ends⟩ := holds
  rw [low_of pos] at low ends
  rw [high_of] at high ends
  exact ⟨low, high, fun same => beq_iff_eq.mp (ends same)⟩

/-- Seventeen digits are always enough. -/
theorem fine_of_canonical (canonical : IsCanonical m e) :
    (10 : ℚ) ^ (decimalMagnitude (RoundingRange.of m e).value (RoundingRange.of m e).den - 17) <
      ((RoundingRange.of m e).high - (RoundingRange.of m e).low) / (RoundingRange.of m e).den := by
  have power : (0 : ℚ) < 2 ^ e := zpow_pos two_pos e
  have positive : 0 < (RoundingRange.of m e).value := by
    show 0 < 4 * m * 1 <<< e.toNat
    have pos := canonical.pos
    rw [Nat.shiftLeft_eq]
    positivity
  have magnitude := pow_decimalMagnitude_le positive (den_of_pos m e)
  rw [value_of] at magnitude
  have share : (m : ℚ) / 10 ^ 16 < 1 / 2 + lowerReach m e := by
    have small : (m : ℚ) < 2 ^ 53 := by exact_mod_cast canonical.small
    unfold lowerReach
    split
    · rename_i edge
      rw [edge.1]
      norm_num
    · rw [div_lt_iff₀ (by positivity)]
      norm_num at small ⊢
      linarith
  have width : ((RoundingRange.of m e).high - (RoundingRange.of m e).low : ℚ) / (RoundingRange.of m e).den =
      (1 / 2 + lowerReach m e) * 2 ^ e := by
    rw [sub_div, high_of, low_of canonical.pos]
    ring
  generalize decimalMagnitude (RoundingRange.of m e).value (RoundingRange.of m e).den = top at magnitude ⊢
  have shifted : (10 : ℚ) ^ (top - 17) = 10 ^ (top - 1) / 10 ^ 16 := by
    have exponent : top - 17 = (top - 1) - (16 : ℕ) := by
      push_cast
      ring
    rw [exponent, zpow_sub₀ (by norm_num), zpow_natCast]
  rw [shifted, width]
  calc (10 : ℚ) ^ (top - 1) / 10 ^ 16 ≤ (m : ℚ) * 2 ^ e / 10 ^ 16 := by gcongr
    _ = (m : ℚ) / 10 ^ 16 * 2 ^ e := by ring
    _ < (1 / 2 + lowerReach m e) * 2 ^ e := mul_lt_mul_of_pos_right share power

end

end RoundingRange

/-- The shortest decimal of a double reaches it. -/
theorem shortestDecimal_reaches {m : ℕ} {e : ℤ} (canonical : IsCanonical m e) :
    Reaches (shortestDecimal m e).value m e := by
  have pos := canonical.pos
  have den := RoundingRange.den_of_pos m e
  have scale : 0 < 1 <<< e.toNat := by
    rw [Nat.shiftLeft_eq]
    positivity
  have low : (RoundingRange.of m e).low < (RoundingRange.of m e).value := by
    refine Nat.mul_lt_mul_of_pos_right ?_ scale
    split <;> omega
  have high : (RoundingRange.of m e).value < (RoundingRange.of m e).high :=
    Nat.mul_lt_mul_of_pos_right (by omega) scale
  have last := RoundingRange.onGrid?_isSome den low high (RoundingRange.fine_of_canonical canonical)
  unfold shortestDecimal
  dsimp only
  generalize decimalMagnitude (RoundingRange.of m e).value (RoundingRange.of m e).den = top at last ⊢
  have some :
      ((List.range 17).findSome? fun (n : Nat) => (RoundingRange.of m e).onGrid? (top - (n + 1))).isSome := by
    rw [List.findSome?_isSome_iff]
    exact ⟨16, by simp, last⟩
  obtain ⟨d, found⟩ := Option.isSome_iff_exists.mp some
  obtain ⟨n, _, grid⟩ := List.exists_of_findSome?_eq_some found
  rw [found, Option.getD_some, Decimal.value_trim]
  exact (RoundingRange.holds_of_onGrid? den grid).reaches pos

end LazyExpr
