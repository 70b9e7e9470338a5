import Mathlib
import LazyExpr.Proofs.Number.Decimals

namespace LazyExpr

open Float.Model (UnpackedFloat Format)
open Float.Model.UnpackedFloat

/-- Half way between the largest double and the power of two behind it: the least number that no double is near
enough to. -/
def overflow : ℚ := (2 ^ 53 - 1 / 2) * 2 ^ 971

/-- What a double without a sign becomes of a number: a finite one if the number is below the overflow. -/
inductive Stores (v : ℚ) (x : Float) : Prop
  | finite (m : ℕ) (e : ℤ) : Binary.ofFloat x = .finite false m e → v < overflow → Stores v x
  | infinite : Binary.ofFloat x = .infinite false → overflow ≤ v → Stores v x

theorem ofFloat_pack_zero : Binary.ofFloat (.ofModel (.pack (.zero .positive))) = .finite false 0 (-1074) := by
  decide +kernel

theorem ofFloat_pack_infinity : Binary.ofFloat (.ofModel (.pack (.infinity .positive))) = .infinite false := by
  decide +kernel

theorem pack_large {s : Sign} {m : ℕ} {e : ℤ} (pos : 0 < m) (large : 971 < e) :
    pack Format.binary64 (.finite s m e pos) = pack Format.binary64 (.infinity s) := by
  have bias : (Format.binary64.exponentBias : ℤ) = 1023 := by decide
  have bits : (Format.binary64.mantissaBitsWithoutImplicit : ℤ) = 52 := rfl
  have past : 2 ^ Format.binary64.exponentBits ≤
      (e + (Format.binary64.exponentBias : ℤ) + Format.binary64.mantissaBitsWithoutImplicit).toNat + 1 := by
    show 2 ^ 11 ≤ _
    rw [bias, bits]
    omega
  unfold pack
  simp only [past, ↓reduceIte]

theorem lt_overflow_of_pow {v : ℚ} (small : v < 2 ^ 1023) : v < overflow := by
  have split : (2 : ℚ) ^ 1023 = 2 ^ 52 * 2 ^ 971 := by rw [← pow_add]
  rw [split] at small
  exact small.trans (mul_lt_mul_of_pos_right (by norm_num) (by positivity))

theorem overflow_le_of_pow {v : ℚ} (large : 2 ^ 1024 ≤ v) : overflow ≤ v := by
  have split : (2 : ℚ) ^ 1024 = 2 ^ 53 * 2 ^ 971 := by rw [← pow_add]
  rw [split] at large
  exact (mul_le_mul_of_nonneg_right (by norm_num) (by positivity)).trans large

theorem Scale.rounds_ge {v : ℚ} {t : ℤ} {r : ℕ} (scale : Scale v t) (rounds : Rounds (v / 2 ^ t) r) :
    2 ^ 52 ≤ r ∨ t = -1074 := by
  refine scale.low.imp_left fun low => ?_
  have power : (0 : ℚ) < 2 ^ t := zpow_pos two_pos t
  rw [zpow_shift, ← le_div_iff₀ power] at low
  have high := rounds.high
  have near : (2 : ℚ) ^ 52 < r + 1 := by
    refine lt_of_le_of_lt (low.trans high) ?_
    linarith
  exact Nat.lt_succ_iff.mp (by exact_mod_cast near)

/-- A rounded mantissa at an exponent of doubles is that of a double. -/
theorem settled_finite {r : ℕ} {t : ℤ} (bound : r ≤ 2 ^ 53) (least : -1074 ≤ t) (normal : 2 ^ 52 ≤ r ∨ t = -1074)
    (fits : t < 971 ∨ t = 971 ∧ r < 2 ^ 53) :
    ∃ m e, Binary.ofFloat (.ofModel (.pack (settled .positive r t))) = .finite false m e := by
  unfold settled
  split
  · exact ⟨0, -1074, ofFloat_pack_zero⟩
  · rename_i some
    split
    · rename_i small
      exact ⟨r, t, ofFloat_pack ⟨Nat.pos_of_ne_zero some, small, least, by omega, normal⟩⟩
    · have canonical : IsCanonical (2 ^ 52) (t + 1) :=
        ⟨by decide, by decide, by omega, by omega, .inl (Nat.le_refl _)⟩
      exact ⟨2 ^ 52, t + 1, ofFloat_pack canonical⟩

theorem settled_infinite {r : ℕ} {t : ℤ} (large : 2 ^ 52 ≤ r) (past : 971 < t ∨ t = 971 ∧ ¬ r < 2 ^ 53) :
    Binary.ofFloat (.ofModel (.pack (settled .positive r t))) = .infinite false := by
  have some : r ≠ 0 := by omega
  have infinite {m : ℕ} {e : ℤ} (pos : 0 < m) (above : 971 < e) :
      Binary.ofFloat (.ofModel (.pack (.finite .positive m e pos))) = .infinite false := by
    have packed : Float.Model.pack (.finite .positive m e pos) = .pack (.infinity .positive) := by
      simp only [Float.Model.pack, pack_large pos above]
    rw [packed]
    exact ofFloat_pack_infinity
  unfold settled
  rw [dif_neg some]
  split
  · rename_i small
    exact infinite _ (past.resolve_right fun both => both.2 small)
  · exact infinite _ (by omega)

theorem RoundsTo.stores {v : ℚ} {u : UnpackedFloat} (rounded : RoundsTo .positive v u) :
    Stores v (.ofModel (.pack u)) := by
  obtain ⟨t, r, scale, rounds, rfl⟩ := rounded
  have bound := scale.rounds_le rounds
  have normal := scale.rounds_ge rounds
  have least := scale.least
  rcases lt_trichotomy t 971 with below | rfl | above
  · obtain ⟨m, e, finite⟩ := settled_finite bound least normal (.inl below)
    have small : v < 2 ^ 1023 := by
      refine scale.high.trans_le ?_
      exact_mod_cast zpow_le_zpow_right₀ (one_le_two (α := ℚ)) (show t + 53 ≤ 1023 by omega)
    exact .finite m e finite (lt_overflow_of_pow small)
  · have power : (0 : ℚ) < 2 ^ (971 : ℤ) := zpow_pos two_pos _
    have large := normal.resolve_right (by decide)
    rcases Nat.lt_or_eq_of_le bound with small | rfl
    · obtain ⟨m, e, finite⟩ := settled_finite bound least normal (.inr ⟨rfl, small⟩)
      refine .finite m e finite ?_
      -- The largest mantissa is odd, so that the way to the next power of two is cut just below its middle.
      by_contra past
      have reached : (2 ^ 53 - 1 / 2 : ℚ) ≤ v / 2 ^ (971 : ℤ) := (le_div_iff₀ power).mpr (not_lt.mp past)
      have next : (r : ℚ) + 1 ≤ 2 ^ 53 := by exact_mod_cast small
      have high := rounds.high
      have last : (r : ℚ) + 1 = 2 ^ 53 := by linarith
      have odd : r + 1 = 2 ^ 53 := by exact_mod_cast last
      have even := rounds.even (.inr (by linarith))
      omega
    · refine .infinite (settled_infinite large (.inr ⟨rfl, Nat.lt_irrefl _⟩)) ?_
      have low := rounds.low
      rw [le_div_iff₀ power, zpow_ofNat] at low
      push_cast at low
      exact low
  · have large := normal.resolve_right (by omega)
    have magnitude := scale.low.resolve_right (by omega)
    refine .infinite (settled_infinite large (.inl above)) (overflow_le_of_pow (le_trans ?_ magnitude))
    exact_mod_cast zpow_le_zpow_right₀ (one_le_two (α := ℚ)) (show 1024 ≤ t + 52 by omega)

/-- Nothing is read as nothing. -/
theorem ofScientific_zero (places : ℕ) : Float.ofScientific 0 true places = .ofModel (.pack (.zero .positive)) := by
  unfold Float.ofScientific
  split
  · rename_i small
    have inside : places < Float.exactlyRepresentablePowersOfTen.size := Nat.lt_succ_of_le small.2
    obtain ⟨m, e, some, unpacked, _⟩ := unpack_power (isPower_powers places inside)
    have nothing : (0 : ℕ).toUInt64.toFloat.toModel.unpack = .zero .positive := by rfl
    have quotient : div Format.binary64 (.zero .positive) (.finite .positive m e some) = .zero .positive := rfl
    rw [← quotient, ← nothing, ← unpacked]
    rfl
  · rfl

theorem ofScientific_tiny {digits places : ℕ} (tiny : 2048 + digits.log2 < places) :
    Float.ofScientific digits true places = .ofModel (.pack (.zero .positive)) := by
  have negated : Int.negOfNat places = -places := Int.negOfNat_eq
  have notLarge : ¬ Int.negOfNat places > 2 ^ Format.binary64.exponentBits := by
    have power : (0 : ℤ) < 2 ^ Format.binary64.exponentBits := by positivity
    omega
  have small : Int.negOfNat places < -((2 ^ Format.binary64.exponentBits : ℤ) + digits.log2) := by
    show Int.negOfNat places < -((2 ^ 11 : ℤ) + digits.log2)
    omega
  have unpacked : UnpackedFloat.ofScientific Format.binary64 digits (Int.negOfNat places) = .zero .positive := by
    unfold UnpackedFloat.ofScientific
    by_cases none : digits = 0
    · rw [dif_pos none]
    · rw [dif_neg none, if_neg notLarge, if_pos small]
  unfold Float.ofScientific
  rw [dif_neg (by omega)]
  rw [← unpacked]
  rfl

/-- A decimal is read as a finite double if it is below the overflow, and as the infinite one otherwise. -/
theorem ofScientific_stores (digits places : ℕ) :
    Stores (digits / 10 ^ places) (Float.ofScientific digits true places) := by
  rcases Nat.eq_zero_or_pos digits with rfl | pos
  · rw [ofScientific_zero, Nat.cast_zero, zero_div]
    exact .finite 0 (-1074) ofFloat_pack_zero (lt_overflow_of_pow (by positivity))
  · by_cases range : places ≤ 2048 + digits.log2
    · obtain ⟨u, rounded, read⟩ := ofScientific_roundsTo pos range
      rw [read]
      exact rounded.stores
    · -- So many places are not looked at: the number is next to nothing.
      rw [ofScientific_tiny (Nat.not_le.mp range)]
      have small : digits < 10 ^ places := by
        calc digits < 2 ^ (digits.log2 + 1) := Nat.lt_log2_self
          _ ≤ 10 ^ (digits.log2 + 1) := Nat.pow_le_pow_left (by decide) _
          _ ≤ 10 ^ places := Nat.pow_le_pow_right (by decide) (by omega)
      have below : (digits : ℚ) / 10 ^ places < 1 := by
        rw [div_lt_one (by positivity)]
        exact_mod_cast small
      exact .finite 0 (-1074) ofFloat_pack_zero (lt_overflow_of_pow (below.trans_le (one_le_pow₀ one_le_two)))

end LazyExpr
