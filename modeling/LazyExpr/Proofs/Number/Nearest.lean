import Mathlib
import LazyExpr.Number.Word
import LazyExpr.Proofs.Number.Decimals
import LazyExpr.Proofs.Number.Negation
import LazyExpr.Proofs.Number.Ordering

namespace LazyExpr

open Float.Model (UnpackedFloat Format)
open Float.Model.UnpackedFloat

/-- The quotient rounded to a whole number, an exact half to the even one. -/
def halfEven (n step : ℕ) : ℕ :=
  if 2 * (n % step) < step ∨ 2 * (n % step) = step ∧ n / step % 2 = 0 then n / step else n / step + 1

/-- The whole number of 53 significant bits that is nearest, an exact half going to the even one. -/
def nearestNat (n : ℕ) : ℕ := halfEven n (2 ^ (n.log2 - 52)) * 2 ^ (n.log2 - 52)

/-- The same with a sign: the number that the double of an integer stands for. -/
def nearest (n : ℤ) : ℤ := if n < 0 then -nearestNat n.natAbs else nearestNat n.natAbs

theorem rounds_halfEven (n : ℕ) {step : ℕ} (pos : 0 < step) : Rounds (n / step) (halfEven n step) := by
  have pos' : (0 : ℚ) < step := by exact_mod_cast pos
  have split : (n : ℚ) / step = (n / step : ℕ) + ((n % step : ℕ) : ℚ) / step := by
    have parts : (step : ℚ) * (n / step : ℕ) + (n % step : ℕ) = n := by exact_mod_cast Nat.div_add_mod n step
    rw [← parts]
    field_simp
  have proper : n % step < step := Nat.mod_lt n pos
  rw [split]
  unfold halfEven
  generalize n / step = q
  generalize n % step = r at proper ⊢
  have begins : (0 : ℚ) ≤ r / step := by positivity
  have ends : (r : ℚ) / step < 1 := (div_lt_one pos').mpr (by exact_mod_cast proper)
  have half (same : 2 * r = step) : (r : ℚ) / step = 1 / 2 := by
    have same' : (2 : ℚ) * r = step := by exact_mod_cast same
    rw [div_eq_div_iff pos'.ne' two_ne_zero]
    linarith
  rcases lt_trichotomy (2 * r) step with less | same | more
  · have less' : (2 : ℚ) * r < step := by exact_mod_cast less
    have below : (r : ℚ) / step < 1 / 2 := by
      rw [div_lt_div_iff₀ pos' two_pos]
      linarith
    rw [if_pos (.inl less)]
    refine ⟨by linarith, by linarith, ?_⟩
    rintro (edge | edge) <;> linarith
  · have middle := half same
    by_cases even : q % 2 = 0
    · rw [if_pos (.inr ⟨same, even⟩)]
      exact ⟨by linarith, by linarith, fun _ => even⟩
    · rw [if_neg (by omega)]
      refine ⟨?_, ?_, fun _ => by omega⟩ <;> push_cast <;> linarith
  · have more' : (step : ℚ) < 2 * r := by exact_mod_cast more
    have above : 1 / 2 < (r : ℚ) / step := by
      rw [div_lt_div_iff₀ two_pos pos']
      linarith
    rw [if_neg (by omega)]
    refine ⟨?_, ?_, ?_⟩ <;> push_cast
    · linarith
    · linarith
    · rintro (edge | edge) <;> linarith

theorem nearestNat_of_small {n : ℕ} (small : n < 2 ^ 53) : nearestNat n = n := by
  have step : n.log2 - 52 = 0 := by
    rcases Nat.eq_zero_or_pos n with rfl | pos
    · rfl
    · have log := (Nat.log2_lt pos.ne').mpr small
      omega
  unfold nearestNat halfEven
  rw [step, pow_zero, Nat.mod_one, if_pos (.inl (by decide)), Nat.div_one, Nat.mul_one]

/-- The doubles of the magnitude of a whole number are multiples of that power of two. -/
theorem scale_nat {n : ℕ} (pos : 0 < n) : Scale n (n.log2 - 52) := by
  have below : (n : ℚ) < 2 ^ (n.log2 + 1) := by exact_mod_cast Nat.lt_log2_self (n := n)
  have above : (2 : ℚ) ^ n.log2 ≤ n := by exact_mod_cast Nat.log2_self_le pos.ne'
  refine ⟨by omega, ?_, .inl ?_⟩
  · have exponent : (n.log2 : ℤ) - 52 + 53 = (n.log2 + 1 : ℕ) := by
      push_cast
      ring
    rw [exponent, zpow_natCast]
    exact below
  · rw [sub_add_cancel, zpow_natCast]
    exact above

/-- What rounding makes of a whole number. -/
theorem Rounds.eq_nearestNat {n r : ℕ} (pos : 0 < n) (rounds : Rounds (n / 2 ^ ((n.log2 : ℤ) - 52)) r) :
    (r : ℚ) * 2 ^ ((n.log2 : ℤ) - 52) = nearestNat n := by
  rcases Nat.lt_or_ge n (2 ^ 53) with small | large
  · have log := (Nat.log2_lt pos.ne').mpr small
    have exponent : (n.log2 : ℤ) - 52 = -(52 - n.log2 : ℕ) := by omega
    have whole : (n : ℚ) / 2 ^ ((n.log2 : ℤ) - 52) = (n * 2 ^ (52 - n.log2) : ℕ) := by
      rw [exponent, zpow_neg, zpow_natCast, div_inv_eq_mul]
      push_cast
      rfl
    rw [nearestNat_of_small small]
    rw [whole] at rounds
    rw [rounds.unique (rounds_self _), ← whole]
    field_simp
  · have log : 53 ≤ n.log2 := (Nat.le_log2 pos.ne').mpr large
    have exponent : (n.log2 : ℤ) - 52 = (n.log2 - 52 : ℕ) := by omega
    have step : (2 : ℚ) ^ ((n.log2 : ℤ) - 52) = (2 ^ (n.log2 - 52) : ℕ) := by
      rw [exponent, zpow_natCast]
      push_cast
      rfl
    rw [step] at rounds ⊢
    rw [rounds.unique (rounds_halfEven n (by positivity))]
    exact_mod_cast rfl

/-- A whole number in the range of words is rounded to a double of its own magnitude. -/
theorem RoundsTo.eq_nearestNat {n : ℕ} {u : UnpackedFloat} (pos : 0 < n) (range : n < 2 ^ 64)
    (rounded : RoundsTo .positive n u) :
    ∃ m e, ∃ canonical : IsCanonical m e,
      u = .finite .positive m e canonical.pos ∧ (m : ℚ) * 2 ^ e = nearestNat n := by
  obtain ⟨t, r, scale, rounds, rfl⟩ := rounded
  have bound := scale.rounds_le rounds
  obtain rfl := scale.unique (scale_nat pos)
  have value := rounds.eq_nearestNat pos
  have log : n.log2 < 64 := (Nat.log2_lt pos.ne').mpr range
  have large : 2 ^ 52 ≤ r := by
    refine (rounds_self (2 ^ 52)).le_of_le rounds ?_
    rw [le_div_iff₀ (by positivity)]
    have low := (scale_nat pos).low.resolve_right (by omega)
    rw [zpow_add₀ two_ne_zero, mul_comm] at low
    push_cast
    exact low
  unfold settled
  rw [dif_neg (by omega)]
  rcases Nat.lt_or_eq_of_le bound with small | rfl
  · rw [if_pos small]
    exact ⟨r, _, ⟨by omega, small, by omega, by omega, .inl large⟩, rfl, value⟩
  · rw [if_neg (by decide)]
    refine ⟨2 ^ 52, _, ⟨by decide, by decide, by omega, by omega, .inl le_rfl⟩, rfl, ?_⟩
    rw [← value, zpow_add_one₀ two_ne_zero]
    push_cast
    ring

/-- A whole number is converted to the nearest double. -/
theorem ofNat_roundsTo {n : ℕ} (pos : 0 < n) :
    ∃ u, RoundsTo .positive n u ∧ Float.ofNat n = .ofModel (.pack u) := by
  show ∃ u, RoundsTo .positive n u ∧ Float.ofScientific n false 0 = .ofModel (.pack u)
  unfold Float.ofScientific
  split
  · rename_i small
    obtain ⟨m, e, some, unpacked, large, value⟩ := unpack_toFloat pos small.1
    obtain ⟨m', e', some', unpacked', large', value'⟩ := unpack_power (isPower_powers 0 (by decide))
    have fine : 52 ≤ (m * m').log2 := by
      rw [Nat.le_log2 (by positivity)]
      nlinarith
    refine ⟨mul Format.binary64 (.finite .positive m e some) (.finite .positive m' e' some'), ?_, ?_⟩
    · have product : (n : ℚ) = m * 2 ^ e * (m' * 2 ^ e') := by
        rw [value, value']
        exact (mul_one _).symm
      rw [product]
      exact mul_roundsTo some some' fine
    · rw [← unpacked, ← unpacked']
      rfl
  · refine ⟨_, ?_, rfl⟩
    show RoundsTo .positive n (UnpackedFloat.ofScientific Format.binary64 n 0)
    have power : (0 : ℤ) < 2 ^ Format.binary64.exponentBits := by positivity
    unfold UnpackedFloat.ofScientific
    rw [dif_neg pos.ne', if_neg (by omega), if_neg (by omega), if_pos le_rfl]
    exact scaled_nat_roundsTo pos _ _

/-- The double of an integer stands for the nearest number. -/
theorem ofInt_value {n : ℤ} (range : n.natAbs < 2 ^ 64) :
    ∃ m e, Binary.ofFloat (Float.ofInt n) = .finite (decide (n < 0)) m e ∧
      Binary.value (decide (n < 0)) m e = nearest n := by
  have doubled {k : ℕ} (pos : 0 < k) (range : k < 2 ^ 64) : ∃ m e, ∃ canonical : IsCanonical m e,
      (m : ℚ) * 2 ^ e = nearestNat k ∧ Float.ofNat k = .ofModel (.pack (.finite .positive m e canonical.pos)) := by
    obtain ⟨u, rounded, converted⟩ := ofNat_roundsTo pos
    obtain ⟨m, e, canonical, rfl, value⟩ := rounded.eq_nearestNat pos range
    exact ⟨m, e, canonical, value, converted⟩
  rcases n with (_ | k) | k
  · have zero : Binary.ofFloat (Float.ofInt 0) = .finite false 0 (-1074) := by decide +kernel
    exact ⟨0, -1074, zero, by simp [Binary.value, nearest, nearestNat_of_small]⟩
  · obtain ⟨m, e, canonical, value, converted⟩ := doubled (Nat.succ_pos k) range
    have same : Float.ofInt (Int.ofNat (k + 1)) = Float.ofNat (k + 1) := rfl
    refine ⟨m, e, ?_, value⟩
    rw [same, converted]
    exact ofFloat_pack canonical
  · obtain ⟨m, e, canonical, value, converted⟩ := doubled (Nat.succ_pos k) range
    have opposite : Float.ofInt (Int.negSucc k) = .ofModel (.pack (Float.ofNat (k + 1)).toModel.unpack.neg) := rfl
    have negative : Int.negSucc k < 0 := Int.negSucc_lt_zero k
    refine ⟨m, e, ?_, ?_⟩
    · rw [opposite, converted, decide_eq_true negative]
      show Binary.ofFloat (.ofModel (.pack (Float.Model.pack _).unpack.neg)) = _
      rw [unpack_pack canonical]
      exact ofFloat_pack (s := .negative) canonical
    · simp only [Binary.value, nearest, negative, decide_true, ↓reduceIte, Int.natAbs_negSucc]
      rw [value]
      push_cast
      rfl

theorem le_nearestNat {n : ℕ} (pos : 0 < n) : 2 ^ n.log2 ≤ nearestNat n ∧ nearestNat n ≤ 2 ^ (n.log2 + 1) := by
  have low := Nat.log2_self_le pos.ne'
  have high := Nat.lt_log2_self (n := n)
  rcases Nat.lt_or_ge n (2 ^ 53) with small | large
  · rw [nearestNat_of_small small]
    exact ⟨low, high.le⟩
  · have log : 53 ≤ n.log2 := (Nat.le_log2 pos.ne').mpr large
    have step : (0 : ℚ) < (2 ^ (n.log2 - 52) : ℕ) := by positivity
    have rounds : Rounds (n / (2 ^ (n.log2 - 52) : ℕ)) (halfEven n (2 ^ (n.log2 - 52))) :=
      rounds_halfEven n (by positivity)
    have bits : 2 ^ n.log2 = 2 ^ 52 * 2 ^ (n.log2 - 52) := by
      rw [← pow_add]
      congr 1
      omega
    have bitsAbove : 2 ^ (n.log2 + 1) = 2 ^ 53 * 2 ^ (n.log2 - 52) := by
      rw [← pow_add]
      congr 1
      omega
    rw [bits] at low ⊢
    rw [bitsAbove] at high ⊢
    constructor
    · refine Nat.mul_le_mul_right _ ((rounds_self (2 ^ 52)).le_of_le rounds ?_)
      rw [le_div_iff₀ step]
      exact_mod_cast low
    · refine Nat.mul_le_mul_right _ (rounds.le_of_le (rounds_self (2 ^ 53)) ?_)
      rw [div_le_iff₀ step]
      exact_mod_cast high.le

theorem nearestNat_mono {n n' : ℕ} (le : n ≤ n') : nearestNat n ≤ nearestNat n' := by
  rcases Nat.eq_zero_or_pos n with rfl | pos
  · rw [nearestNat_of_small (by decide)]
    exact Nat.zero_le _
  · have pos' := pos.trans_le le
    have log : n.log2 ≤ n'.log2 := (Nat.le_log2 pos'.ne').mpr ((Nat.log2_self_le pos.ne').trans le)
    rcases Nat.lt_or_eq_of_le log with below | same
    · calc nearestNat n ≤ 2 ^ (n.log2 + 1) := (le_nearestNat pos).2
        _ ≤ 2 ^ n'.log2 := Nat.pow_le_pow_right (by decide) below
        _ ≤ nearestNat n' := (le_nearestNat pos').1
    · unfold nearestNat
      rw [same]
      refine Nat.mul_le_mul_right _
        ((rounds_halfEven n (by positivity)).le_of_le (rounds_halfEven n' (by positivity)) ?_)
      gcongr

/-- Rounding never puts integers in the wrong order. -/
theorem nearest_mono {n n' : ℤ} (le : n ≤ n') : nearest n ≤ nearest n' := by
  unfold nearest
  split
  · split
    · have back : nearestNat n'.natAbs ≤ nearestNat n.natAbs := nearestNat_mono (by omega)
      omega
    · omega
  · rw [if_neg (by omega)]
    have onward : nearestNat n.natAbs ≤ nearestNat n'.natAbs := nearestNat_mono (by omega)
    omega

/-- Integers of no more than 53 bits are doubles. -/
theorem nearest_of_small {n : ℤ} (small : n.natAbs < 2 ^ 53) : nearest n = n := by
  unfold nearest
  rw [nearestNat_of_small small]
  split <;> omega

end LazyExpr
