import Mathlib
import LazyExpr.Proofs.Number.Rounding

namespace LazyExpr

open Float.Model (UnpackedFloat Format)
open Float.Model.UnpackedFloat

/-- A whole number of at most 53 bits is a double. -/
theorem canonical_of_nat {n : ℕ} (pos : 0 < n) (small : n < 2 ^ 53) :
    ∃ m e, IsCanonical m e ∧ 2 ^ 52 ≤ m ∧ (m : ℚ) * 2 ^ e = n := by
  have log : n.log2 < 53 := (Nat.log2_lt pos.ne').mpr small
  have bits : (n <<< (52 - n.log2)).log2 = 52 := by
    rw [log2_shiftLeft pos]
    omega
  have some : n <<< (52 - n.log2) ≠ 0 := by
    rw [Nat.shiftLeft_eq]
    positivity
  obtain ⟨large, below⟩ := (Nat.log2_eq_iff some).mp bits
  refine ⟨n <<< (52 - n.log2), -(52 - n.log2 : ℕ), ⟨by omega, below, by omega, by omega, .inl large⟩, large, ?_⟩
  rw [Nat.shiftLeft_eq, zpow_neg, zpow_natCast]
  push_cast
  field_simp

/-- The double of a whole number of at most 53 bits is that number. -/
theorem unpack_toFloat {n : ℕ} (pos : 0 < n) (small : n < 2 ^ 53) :
    ∃ m e, ∃ some : 0 < m, n.toUInt64.toFloat.toModel.unpack = .finite .positive m e some ∧ 2 ^ 52 ≤ m ∧
      (m : ℚ) * 2 ^ e = n := by
  obtain ⟨m, e, canonical, large, value⟩ := canonical_of_nat pos small
  refine ⟨m, e, canonical.pos, ?_, large, value⟩
  have word : n.toUInt64.toNat = n := by
    exact UInt64.toNat_ofNat_of_lt' (small.trans (by decide))
  have above : compare (n : ℤ) 0 = .gt := Int.compare_eq_gt.mpr (by exact_mod_cast pos)
  have rounded : RoundsTo .positive (n * 2 ^ (0 : ℤ)) (UnpackedFloat.round Format.binary64 .positive n 0) :=
    round_roundsTo pos
  have exact : UnpackedFloat.round Format.binary64 .positive n 0 = .finite .positive m e canonical.pos := by
    refine rounded.eq_of_reaches canonical ?_
    rw [zpow_zero, mul_one, ← value]
    exact reaches_self m e
  show (Float.Model.pack (UnpackedFloat.normalize Format.binary64 (n.toUInt64.toNat : ℤ) 0 .positive)).unpack = _
  rw [word]
  unfold UnpackedFloat.normalize
  rw [above]
  simp only [Int.toNat_natCast]
  rw [exact, unpack_pack canonical]

/-- The double is that power of ten. -/
def isPower (x : Float) (i : ℕ) : Bool :=
  match Binary.ofFloat x with
  | .finite false m e => 2 ^ 52 ≤ m && m * 2 ^ e.toNat == 10 ^ i * 2 ^ (-e).toNat
  | _ => false

theorem isPower_powers : ∀ (i : ℕ) (inside : i < Float.exactlyRepresentablePowersOfTen.size),
    isPower Float.exactlyRepresentablePowersOfTen[i] i = true := by
  decide +kernel

theorem unpack_power {x : Float} {i : ℕ} (power : isPower x i = true) :
    ∃ m e, ∃ some : 0 < m,
      x.toModel.unpack = .finite .positive m e some ∧ 2 ^ 52 ≤ m ∧ (m : ℚ) * 2 ^ e = 10 ^ i := by
  unfold isPower at power
  split at power
  · rename_i m e decoded
    rw [Bool.and_eq_true, decide_eq_true_eq, beq_iff_eq] at power
    obtain ⟨large, value⟩ := power
    have some : 0 < m := by omega
    refine ⟨m, e, some, Binary.unpack_of_finite decoded some, large, ?_⟩
    have value' : (m : ℚ) * 2 ^ e.toNat = 10 ^ i * 2 ^ (-e).toNat := by exact_mod_cast value
    rw [zpow_split two_ne_zero, ← mul_div_assoc, value']
    field_simp
  · cases power

theorem scaled_nat_roundsTo {n : ℕ} (pos : 0 < n) (some : 0 < n <<< Format.binary64.mantissaBits)
    (one : 0 < 10 ^ 0) :
    RoundsTo .positive n (mul Format.binary64
      (.finite .positive (n <<< Format.binary64.mantissaBits) (-Format.binary64.mantissaBits) some)
      (.finite .positive (10 ^ 0) 0 one)) := by
  have bits : Format.binary64.mantissaBits = 53 := rfl
  have fine : 52 ≤ (n <<< Format.binary64.mantissaBits * 10 ^ 0).log2 := by
    rw [pow_zero, mul_one, log2_shiftLeft pos, bits]
    omega
  have value : ((n <<< Format.binary64.mantissaBits : ℕ) : ℚ) * 2 ^ (-Format.binary64.mantissaBits : ℤ) *
      ((10 ^ 0 : ℕ) * 2 ^ (0 : ℤ)) = n := by
    rw [Nat.shiftLeft_eq, zpow_neg, zpow_natCast]
    push_cast
    field_simp
  rw [← value]
  exact mul_roundsTo some one fine

theorem unpacked_ofScientific {digits places : ℕ} (pos : 0 < digits) (range : places ≤ 2048 + digits.log2) :
    RoundsTo .positive (digits / 10 ^ places)
      (UnpackedFloat.ofScientific Format.binary64 digits (Int.negOfNat places)) := by
  have negated : Int.negOfNat places = -places := Int.negOfNat_eq
  have notLarge : ¬ Int.negOfNat places > 2 ^ Format.binary64.exponentBits := by
    have power : (0 : ℤ) < 2 ^ Format.binary64.exponentBits := by positivity
    omega
  have notSmall : ¬ Int.negOfNat places < -((2 ^ Format.binary64.exponentBits : ℤ) + digits.log2) := by
    show ¬ Int.negOfNat places < -((2 ^ 11 : ℤ) + digits.log2)
    omega
  unfold UnpackedFloat.ofScientific
  rw [dif_neg pos.ne', if_neg notLarge, if_neg notSmall]
  rcases Nat.eq_zero_or_pos places with rfl | fraction
  · rw [if_pos (by decide), pow_zero, div_one]
    exact scaled_nat_roundsTo pos _ _
  · rw [if_neg (by omega)]
    have exponent : (-Int.negOfNat places).toNat = places := by omega
    have value : (digits : ℚ) * 2 ^ (0 : ℤ) / ((10 ^ (-Int.negOfNat places).toNat : ℕ) * 2 ^ (0 : ℤ)) =
        digits / 10 ^ places := by
      rw [exponent]
      push_cast
      simp
    rw [← value]
    exact div_roundsTo pos _

/-- A decimal with a fraction is read as the nearest double. -/
theorem ofScientific_roundsTo {digits places : ℕ} (pos : 0 < digits) (range : places ≤ 2048 + digits.log2) :
    ∃ u, RoundsTo .positive (digits / 10 ^ places) u ∧
      Float.ofScientific digits true places = .ofModel (.pack u) := by
  unfold Float.ofScientific
  split
  · rename_i small
    have inside : places < Float.exactlyRepresentablePowersOfTen.size := Nat.lt_succ_of_le small.2
    obtain ⟨m, e, some, unpacked, _, value⟩ := unpack_toFloat pos small.1
    obtain ⟨m', e', some', unpacked', _, value'⟩ := unpack_power (isPower_powers places inside)
    refine ⟨div Format.binary64 (.finite .positive m e some) (.finite .positive m' e' some'), ?_, ?_⟩
    · rw [← value, ← value']
      exact div_roundsTo some some'
    · rw [← unpacked, ← unpacked']
      rfl
  · exact ⟨_, unpacked_ofScientific pos range, rfl⟩

/-- What reaches a double is more than nothing. -/
theorem Reaches.large {v : ℚ} {m : ℕ} {e : ℤ} (canonical : IsCanonical m e) (reaches : Reaches v m e) :
    1 / 2 ^ 1075 ≤ v := by
  have share := (lowerReach_pos m e).2
  have one : (1 : ℚ) ≤ m := by exact_mod_cast canonical.pos
  have least : (2 : ℚ) ^ (-1074 : ℤ) ≤ 2 ^ e := zpow_le_zpow_right₀ one_le_two canonical.low
  have half : (1 : ℚ) / 2 ^ 1075 = 1 / 2 * 2 ^ (-1074 : ℤ) := by
    rw [zpow_neg, pow_succ]
    field_simp
  rw [half]
  calc (1 : ℚ) / 2 * 2 ^ (-1074 : ℤ) ≤ (m - lowerReach m e) * 2 ^ e :=
        mul_le_mul (by linarith) least (by positivity) (by linarith)
    _ ≤ v := reaches.low

/-- A decimal that reaches a double has no more places than reading looks at. -/
theorem places_le_of_reaches {digits places m : ℕ} {e : ℤ} (canonical : IsCanonical m e)
    (reaches : Reaches (digits / 10 ^ places) m e) : places ≤ 2048 + digits.log2 := by
  have large := reaches.large canonical
  rw [div_le_div_iff₀ (by positivity) (by positivity), one_mul] at large
  have whole : 10 ^ places ≤ digits * 2 ^ 1075 := by exact_mod_cast large
  have bits : 2 ^ (3 * places) < 2 ^ (digits.log2 + 1 + 1075) := by
    calc 2 ^ (3 * places) = 8 ^ places := by rw [pow_mul]; rfl
      _ ≤ 10 ^ places := Nat.pow_le_pow_left (by decide) places
      _ ≤ digits * 2 ^ 1075 := whole
      _ < 2 ^ (digits.log2 + 1) * 2 ^ 1075 := Nat.mul_lt_mul_of_pos_right Nat.lt_log2_self (by positivity)
      _ = 2 ^ (digits.log2 + 1 + 1075) := (pow_add _ _ _).symm
  have exponents := (Nat.pow_lt_pow_iff_right (by decide)).mp bits
  omega

/-- A decimal that reaches a double is read as that double. -/
theorem ofScientific_eq_of_reaches {x : Float} {digits places m : ℕ} {e : ℤ}
    (finite : Binary.ofFloat x = .finite false m e) (pos : 0 < m) (reaches : Reaches (digits / 10 ^ places) m e) :
    Float.ofScientific digits true places = x := by
  have canonical := Binary.canonical_of_finite finite pos
  have some : 0 < digits := by
    refine Nat.pos_of_ne_zero fun none => ?_
    have large := reaches.large canonical
    rw [none, Nat.cast_zero, zero_div] at large
    exact absurd large (not_le.mpr (by positivity))
  obtain ⟨u, rounded, read⟩ := ofScientific_roundsTo some (places_le_of_reaches canonical reaches)
  rw [rounded.eq_of_reaches canonical reaches] at read
  rw [read]
  exact Binary.eq_of_finite (ofFloat_pack canonical) finite

end LazyExpr
