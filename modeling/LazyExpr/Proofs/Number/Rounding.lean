import Mathlib
import LazyExpr.Proofs.Number.Packing

namespace LazyExpr

open Float.Model (UnpackedFloat Format totalExponent)
open Float.Model.UnpackedFloat

/-- The natural number next to a rational, and the even one of two that are equally near. -/
structure Rounds (q : ℚ) (n : ℕ) : Prop where
  low : (n : ℚ) - 1 / 2 ≤ q
  high : q ≤ n + 1 / 2
  even : q = n - 1 / 2 ∨ q = n + 1 / 2 → n % 2 = 0

theorem Rounds.le_of_le {q q' : ℚ} {n n' : ℕ} (rounds : Rounds q n) (rounds' : Rounds q' n') (le : q ≤ q') :
    n ≤ n' := by
  by_contra above
  have next : (n' : ℚ) + 1 ≤ n := by exact_mod_cast Nat.lt_of_not_le above
  have low := rounds.low
  have high := rounds'.high
  have top : q = n - 1 / 2 := by linarith
  have bottom : q' = n' + 1 / 2 := by linarith
  have successor : n = n' + 1 := by
    have equal : (n : ℚ) = n' + 1 := by linarith
    exact_mod_cast equal
  have even := rounds.even (.inl top)
  have even' := rounds'.even (.inr bottom)
  omega

theorem Rounds.unique {q : ℚ} {n n' : ℕ} (rounds : Rounds q n) (rounds' : Rounds q n') : n = n' :=
  Nat.le_antisymm (rounds.le_of_le rounds' le_rfl) (rounds'.le_of_le rounds le_rfl)

theorem rounds_self (n : ℕ) : Rounds n n := by
  refine ⟨by linarith, by linarith, ?_⟩
  rintro (same | same) <;> linarith

/-- Where the numbers begin that a mantissa with its two residual bits stands for. -/
def start (em : ExtendedMantissa) : ℚ := em.mantissa + if em.roundBit then 1 / 2 else 0

/-- The number is in the half unit of the mantissa that the round bit tells, and the sticky bit tells
whether it is more than its start. -/
structure Shows (em : ExtendedMantissa) (q : ℚ) : Prop where
  low : start em ≤ q
  high : q < start em + 1 / 2
  exact : em.stickyBit = false ↔ q = start em

namespace Shows

variable {em : ExtendedMantissa} {q : ℚ}

theorem bounds (shows : Shows em q) : (em.mantissa : ℚ) ≤ q ∧ q < em.mantissa + 1 := by
  have begins : (em.mantissa : ℚ) ≤ start em ∧ start em ≤ em.mantissa + 1 / 2 := by
    unfold start
    split <;> constructor <;> linarith
  have low := shows.low
  have high := shows.high
  constructor <;> linarith

/-- The residual bits are what it takes to round. -/
theorem rounds (shows : Shows em q) : Rounds q em.roundedMantissa := by
  obtain ⟨low, high, exact⟩ := shows
  obtain ⟨m, round, sticky⟩ := em
  cases round with
  | false =>
    have rounded : (ExtendedMantissa.mk m false sticky).roundedMantissa = m := by cases sticky <;> rfl
    have begins : start ⟨m, false, sticky⟩ = m := add_zero _
    rw [begins] at low high
    rw [rounded]
    refine ⟨by linarith, by linarith, ?_⟩
    rintro (same | same) <;> linarith
  | true =>
    have begins : start ⟨m, true, sticky⟩ = m + 1 / 2 := rfl
    rw [begins] at low high exact
    cases sticky with
    | false =>
      have rounded : (ExtendedMantissa.mk m true false).roundedMantissa = m + m % 2 := rfl
      have middle : q = m + 1 / 2 := exact.mp rfl
      rw [rounded]
      rcases Nat.mod_two_eq_zero_or_one m with bit | bit
      · rw [bit]
        refine ⟨?_, ?_, fun _ => bit⟩ <;> push_cast <;> linarith
      · rw [bit]
        refine ⟨?_, ?_, fun _ => by omega⟩ <;> push_cast <;> linarith
    | true =>
      have rounded : (ExtendedMantissa.mk m true true).roundedMantissa = m + 1 := rfl
      have above : q ≠ m + 1 / 2 := fun same => Bool.noConfusion (exact.mpr same)
      rw [rounded]
      refine ⟨?_, ?_, ?_⟩
      · push_cast
        linarith
      · push_cast
        linarith
      · push_cast
        rintro (same | same)
        · exact absurd (by linarith) above
        · linarith

theorem shiftRightOne (shows : Shows em q) : Shows em.shiftRightOne (q / 2) := by
  have begins : start em.shiftRightOne = em.mantissa / 2 := by
    have split : ((em.mantissa % 2 : ℕ) : ℚ) + 2 * ((em.mantissa / 2 : ℕ) : ℚ) = em.mantissa := by
      exact_mod_cast Nat.mod_add_div em.mantissa 2
    have bit : (em.mantissa % 2 != 0) = true ↔ em.mantissa % 2 = 1 := by
      rw [bne_iff_ne]
      omega
    simp only [start, ExtendedMantissa.shiftRightOne, bit]
    rcases Nat.mod_two_eq_zero_or_one em.mantissa with bit | bit <;> rw [bit] at split ⊢ <;> push_cast at split
    · simp only [zero_ne_one, ↓reduceIte]
      linarith
    · simp only [↓reduceIte]
      linarith
  have inside := shows.bounds
  refine ⟨?_, ?_, ?_⟩
  · rw [begins]
    linarith
  · rw [begins]
    linarith
  · rw [begins]
    have half : q / 2 = em.mantissa / 2 ↔ q = em.mantissa := by
      constructor <;> intro same <;> linarith
    have both : em.shiftRightOne.stickyBit = false ↔ em.roundBit = false ∧ em.stickyBit = false :=
      Bool.or_eq_false_iff
    rw [half, both, shows.exact]
    have low := shows.low
    obtain ⟨m, round, sticky⟩ := em
    cases round with
    | false =>
      have start : start ⟨m, false, sticky⟩ = m := add_zero _
      rw [start]
      exact and_iff_right rfl
    | true =>
      have start : start ⟨m, true, sticky⟩ = m + 1 / 2 := rfl
      rw [start] at low
      refine iff_of_false nofun fun same => ?_
      simp only at same
      linarith

theorem shiftRight (shows : Shows em q) (n : ℕ) : Shows (em >>> n) (q / 2 ^ n) := by
  show Shows (n.repeat ExtendedMantissa.shiftRightOne em) (q / 2 ^ n)
  induction n with
  | zero =>
    rw [pow_zero, div_one]
    exact shows
  | succ n ih =>
    have next := ih.shiftRightOne
    rwa [div_div, ← pow_succ] at next

end Shows

theorem shows_exact (m : ℕ) : Shows (.ofMantissaAndAccuracy m .exact) m := by
  have begins : start (.ofMantissaAndAccuracy m .exact) = m := add_zero _
  exact ⟨begins.le, by rw [begins]; linarith, iff_of_true rfl begins.symm⟩

/-- The accuracy of a quotient is found by comparing its remainder with half of the divisor. -/
theorem shows_fraction (m : ℕ) {num den : ℕ} (proper : num < den) :
    Shows (.ofMantissaAndAccuracy m (accuracyOfFraction num den)) (m + num / den) := by
  have pos : (0 : ℚ) < den := by exact_mod_cast Nat.zero_lt_of_lt proper
  have below : (num : ℚ) < den := by exact_mod_cast proper
  unfold accuracyOfFraction
  split
  · rename_i none
    rw [none, Nat.cast_zero, zero_div, add_zero]
    exact shows_exact m
  · rename_i some
    have above : (0 : ℚ) < num := by exact_mod_cast Nat.pos_of_ne_zero some
    rcases lt_trichotomy (2 * num) den with less | same | more
    · have less' : (2 : ℚ) * num < den := by exact_mod_cast less
      rw [Nat.compare_eq_lt.mpr less]
      have begins : start (.ofMantissaAndAccuracy m (.inexact .lt)) = m := add_zero _
      have quotient : (num : ℚ) / den < 1 / 2 := by
        rw [div_lt_div_iff₀ pos two_pos]
        linarith
      have positive : (0 : ℚ) < num / den := div_pos above pos
      refine ⟨by rw [begins]; linarith, by rw [begins]; linarith, iff_of_false nofun ?_⟩
      rw [begins]
      linarith
    · have same' : (2 : ℚ) * num = den := by exact_mod_cast same
      rw [Nat.compare_eq_eq.mpr same]
      have begins : start (.ofMantissaAndAccuracy m (.inexact .eq)) = m + 1 / 2 := rfl
      have quotient : (num : ℚ) / den = 1 / 2 := by
        rw [div_eq_div_iff pos.ne' two_ne_zero]
        linarith
      exact ⟨by rw [begins, quotient], by rw [begins, quotient]; linarith,
        iff_of_true rfl (by rw [begins, quotient])⟩
    · have more' : (den : ℚ) < 2 * num := by exact_mod_cast more
      rw [Nat.compare_eq_gt.mpr more]
      have begins : start (.ofMantissaAndAccuracy m (.inexact .gt)) = m + 1 / 2 := rfl
      have quotient : 1 / 2 < (num : ℚ) / den := by
        rw [div_lt_div_iff₀ two_pos pos]
        linarith
      have fraction : (num : ℚ) / den < 1 := (div_lt_one pos).mpr below
      refine ⟨by rw [begins]; linarith, by rw [begins]; linarith, iff_of_false nofun ?_⟩
      rw [begins]
      intro same
      linarith

/-- The lowest bit of the doubles of a magnitude stands for `2 ^ t`. -/
structure Scale (v : ℚ) (t : ℤ) : Prop where
  least : -1074 ≤ t
  high : v < 2 ^ (t + 53)
  low : 2 ^ (t + 52) ≤ v ∨ t = -1074

theorem targetExponent_eq (m : ℕ) (e : ℤ) :
    Format.binary64.targetExponent (totalExponent m e) = max (m.log2 + e - 52) (-1074) := by
  have least : Format.binary64.minExponent = -1074 := by decide
  have bits : (Format.binary64.mantissaBits : ℤ) = 53 := by decide
  unfold Format.targetExponent totalExponent
  rw [least, bits]
  omega

/-- A rounded mantissa as a double. One that has grown to 54 bits is a power of two. -/
def settled (s : Sign) (r : ℕ) (t : ℤ) : UnpackedFloat :=
  if none : r = 0 then .zero s
  else if r < 2 ^ 53 then .finite s r t (Nat.pos_of_ne_zero none)
  else .finite s (2 ^ 52) (t + 1) (Nat.two_pow_pos 52)

theorem shift_small {r : ℕ} {t : ℤ} (small : r < 2 ^ 53) (least : -1074 ≤ t) :
    shiftToTargetExponent Format.binary64 r t .exact = (.ofMantissaAndAccuracy r .exact, t) := by
  have log : r.log2 ≤ 52 := by
    by_cases none : r = 0
    · rw [none]
      decide
    · exact Nat.lt_succ_iff.mp ((Nat.log2_lt none).mpr small)
  have still : (max ((r.log2 : ℤ) + t - 52) (-1074) - t).toNat = 0 := by omega
  simp only [shiftToTargetExponent, shiftToExponent, targetExponent_eq, still]
  rw [Nat.cast_zero, add_zero]
  rfl

theorem shift_carry {t : ℤ} (least : -1074 ≤ t) :
    shiftToTargetExponent Format.binary64 (2 ^ 53) t .exact = (.ofMantissaAndAccuracy (2 ^ 52) .exact, t + 1) := by
  have one : (max (((2 ^ 53 : ℕ).log2 : ℤ) + t - 52) (-1074) - t).toNat = 1 := by
    rw [Nat.log2_two_pow]
    omega
  simp only [shiftToTargetExponent, shiftToExponent, targetExponent_eq, one]
  rfl

/-- A rounded mantissa is shifted once more, which matters only for the one of 54 bits. -/
theorem settled_of_shift {r : ℕ} {t : ℤ} (s : Sign) (bound : r ≤ 2 ^ 53) (least : -1074 ≤ t) :
    (if none : (shiftToTargetExponent Format.binary64 r t .exact).1.mantissa = 0 then UnpackedFloat.zero s
      else .finite s (shiftToTargetExponent Format.binary64 r t .exact).1.mantissa
        (shiftToTargetExponent Format.binary64 r t .exact).2 (Nat.pos_of_ne_zero none)) = settled s r t := by
  rcases Nat.lt_or_eq_of_le bound with small | rfl
  · simp only [shift_small small least]
    unfold settled
    simp only [small, ↓reduceIte]
    rfl
  · simp only [shift_carry least]
    rfl

/-- A number is rounded to the nearest double of its magnitude. -/
def RoundsTo (s : Sign) (v : ℚ) (u : UnpackedFloat) : Prop :=
  ∃ t r, Scale v t ∧ Rounds (v / 2 ^ t) r ∧ u = settled s r t

theorem Scale.rounds_le {v : ℚ} {t : ℤ} {r : ℕ} (scale : Scale v t) (rounds : Rounds (v / 2 ^ t) r) :
    r ≤ 2 ^ 53 := by
  have top : v / 2 ^ t < 2 ^ 53 := by
    rw [div_lt_iff₀ (by positivity)]
    have high := scale.high
    rwa [add_comm, zpow_add₀ two_ne_zero] at high
  have near := rounds.low
  have below : (r : ℚ) < 2 ^ 53 + 1 := by linarith
  exact Nat.lt_succ_iff.mp (by exact_mod_cast below)

theorem roundWithAccuracy_roundsTo {m : ℕ} {e : ℤ} {accuracy : Accuracy} {q : ℚ}
    (shows : Shows (.ofMantissaAndAccuracy m accuracy) q) (fine : 52 ≤ m.log2 ∨ e ≤ -1074) (s : Sign) :
    RoundsTo s (q * 2 ^ e) (roundWithAccuracy Format.binary64 s m e accuracy) := by
  have mantissa : (ExtendedMantissa.ofMantissaAndAccuracy m accuracy).mantissa = m := by
    rcases accuracy with _ | (_ | _ | _) <;> rfl
  have inside := shows.bounds
  rw [mantissa] at inside
  generalize target : max ((m.log2 : ℤ) + e - 52) (-1074) = t
  have shift : ((t - e).toNat : ℤ) = t - e := by omega
  have scale : Scale (q * 2 ^ e) t := by
    refine ⟨by omega, ?_, ?_⟩
    · have log : ((m : ℚ) + 1) ≤ 2 ^ ((m.log2 : ℤ) + 1) := by exact_mod_cast Nat.lt_log2_self (n := m)
      calc q * 2 ^ e < 2 ^ ((m.log2 : ℤ) + 1) * 2 ^ e :=
            mul_lt_mul_of_pos_right (inside.2.trans_le log) (zpow_pos two_pos e)
        _ = 2 ^ ((m.log2 : ℤ) + 1 + e) := (zpow_add₀ two_ne_zero _ _).symm
        _ ≤ 2 ^ (t + 53) := zpow_le_zpow_right₀ one_le_two (by omega)
    · by_cases lowest : t = -1074
      · exact .inr lowest
      · have some : m ≠ 0 := by
          rintro rfl
          have none : Nat.log2 0 = 0 := by decide
          omega
        have log : (2 : ℚ) ^ (m.log2 : ℤ) ≤ m := by exact_mod_cast Nat.log2_self_le some
        have exponent : t + 52 = m.log2 + e := by omega
        rw [exponent, zpow_add₀ two_ne_zero]
        exact .inl (mul_le_mul_of_nonneg_right (log.trans inside.1) (zpow_pos two_pos e).le)
  have rounds : Rounds (q * 2 ^ e / 2 ^ t)
      (ExtendedMantissa.ofMantissaAndAccuracy m accuracy >>> (t - e).toNat).roundedMantissa := by
    have shifted := (shows.shiftRight (t - e).toNat).rounds
    have power : q / 2 ^ (t - e).toNat = q * 2 ^ e / 2 ^ t := by
      rw [← zpow_natCast, shift, zpow_sub₀ two_ne_zero]
      field_simp
    rwa [power] at shifted
  refine ⟨t, _, scale, rounds, ?_⟩
  have bound := scale.rounds_le rounds
  have first : shiftToTargetExponent Format.binary64 m e accuracy =
      (ExtendedMantissa.ofMantissaAndAccuracy m accuracy >>> (t - e).toNat, t) := by
    simp only [shiftToTargetExponent, shiftToExponent, targetExponent_eq, target, shift]
    rw [add_sub_cancel]
  unfold roundWithAccuracy
  simp only [first]
  exact settled_of_shift s bound scale.least

theorem Scale.unique {v : ℚ} {t t' : ℤ} (scale : Scale v t) (scale' : Scale v t') : t = t' := by
  have ordered {t t' : ℤ} (scale : Scale v t) (scale' : Scale v t') : t' ≤ t := by
    rcases scale'.low with low | lowest
    · have powers : (2 : ℚ) ^ (t' + 52) < 2 ^ (t + 53) := low.trans_lt scale.high
      have exponents := (zpow_lt_zpow_iff_right₀ one_lt_two).mp powers
      omega
    · have least := scale.least
      omega
  exact Int.le_antisymm (ordered scale' scale) (ordered scale scale')

/-- How far below a double, in units of its lowest bit, the numbers begin that are rounded to it. The
double below a power of two is only half as far away. -/
def lowerReach (m : ℕ) (e : ℤ) : ℚ := if m = 2 ^ 52 ∧ -1074 < e then 1 / 4 else 1 / 2

/-- The number is within half the way from the double to its neighbours. The ends belong to it if its
mantissa is even. -/
structure Reaches (v : ℚ) (m : ℕ) (e : ℤ) : Prop where
  low : (m - lowerReach m e) * 2 ^ e ≤ v
  high : v ≤ (m + 1 / 2) * 2 ^ e
  even : v = (m - lowerReach m e) * 2 ^ e ∨ v = (m + 1 / 2) * 2 ^ e → m % 2 = 0

theorem lowerReach_pos (m : ℕ) (e : ℤ) : 0 < lowerReach m e ∧ lowerReach m e ≤ 1 / 2 := by
  unfold lowerReach
  split <;> norm_num

theorem reaches_self (m : ℕ) (e : ℤ) : Reaches (m * 2 ^ e) m e := by
  have power : (0 : ℚ) < 2 ^ e := zpow_pos two_pos e
  have reach := (lowerReach_pos m e).1
  refine ⟨by nlinarith, by nlinarith, ?_⟩
  rintro (same | same) <;> exact absurd (mul_right_cancel₀ power.ne' same) (by linarith)

theorem zpow_split {b : ℚ} (nonzero : b ≠ 0) (e : ℤ) : b ^ e = b ^ e.toNat / b ^ (-e).toNat := by
  rw [← zpow_natCast, ← zpow_natCast, ← zpow_sub₀ nonzero]
  congr 1
  omega

theorem zpow_shift (e k : ℤ) : (2 : ℚ) ^ (e + k) = 2 ^ k * 2 ^ e := by
  rw [add_comm, zpow_add₀ two_ne_zero]

/-- A number that reaches a double has its magnitude, or the one below if the double is a power of two. -/
theorem Scale.eq_of_reaches {v : ℚ} {t e : ℤ} {m : ℕ} (scale : Scale v t) (canonical : IsCanonical m e)
    (reaches : Reaches v m e) : t = e ∨ t = e - 1 ∧ m = 2 ^ 52 ∧ -1074 < e ∧ v < 2 ^ 52 * 2 ^ e := by
  have power : (0 : ℚ) < 2 ^ e := zpow_pos two_pos e
  have reach := (lowerReach_pos m e).2
  have small : (m : ℚ) + 1 ≤ 2 ^ 53 := by exact_mod_cast canonical.small
  have least := scale.least
  rcases lt_trichotomy t e with below | same | above
  · have large : 2 ^ 52 ≤ m := canonical.normal.resolve_right (by omega)
    have large' : (2 : ℚ) ^ 52 ≤ m := by exact_mod_cast large
    have high : v < 2 ^ 52 * 2 ^ e := by
      have shifted : (2 : ℚ) ^ (t + 53) ≤ 2 ^ (e + 52) := zpow_le_zpow_right₀ one_le_two (by omega)
      rw [zpow_shift e] at shifted
      exact scale.high.trans_le shifted
    have near : (m : ℚ) - 1 / 2 < 2 ^ 52 := by
      refine lt_of_mul_lt_mul_right ?_ power.le
      nlinarith [reaches.low]
    have top : m = 2 ^ 52 := by
      have bound : (m : ℚ) < 2 ^ 52 + 1 := by linarith
      have bound' : m < 2 ^ 52 + 1 := by exact_mod_cast bound
      omega
    refine .inr ⟨?_, top, by omega, high⟩
    by_contra apart
    have shifted : (2 : ℚ) ^ (t + 53) ≤ 2 ^ (e + 51) := zpow_le_zpow_right₀ one_le_two (by omega)
    rw [zpow_shift e] at shifted
    have far : ((m : ℚ) - 1 / 2) * 2 ^ e < 2 ^ 51 * 2 ^ e := by nlinarith [reaches.low, scale.high]
    have far' : (m : ℚ) - 1 / 2 < 2 ^ 51 := lt_of_mul_lt_mul_right far power.le
    linarith
  · exact .inl same
  · have shifted : (2 : ℚ) ^ (e + 53) ≤ 2 ^ (t + 52) := zpow_le_zpow_right₀ one_le_two (by omega)
    have low := scale.low.resolve_right (by have := canonical.low; omega)
    rw [zpow_shift e] at shifted
    have far : (2 : ℚ) ^ 53 * 2 ^ e ≤ (m + 1 / 2) * 2 ^ e := (shifted.trans low).trans reaches.high
    have far' : (2 : ℚ) ^ 53 ≤ m + 1 / 2 := le_of_mul_le_mul_right far power
    linarith

/-- A number that reaches a double is rounded to it. -/
theorem RoundsTo.eq_of_reaches {s : Sign} {v : ℚ} {u : UnpackedFloat} {m : ℕ} {e : ℤ} (rounded : RoundsTo s v u)
    (canonical : IsCanonical m e) (reaches : Reaches v m e) : u = .finite s m e canonical.pos := by
  obtain ⟨t, r, scale, rounds, rfl⟩ := rounded
  have power : (0 : ℚ) < 2 ^ e := zpow_pos two_pos e
  rcases scale.eq_of_reaches canonical reaches with rfl | ⟨rfl, rfl, above, high⟩
  · have reach := (lowerReach_pos m t).2
    have near : Rounds (v / 2 ^ t) m := by
      refine ⟨?_, ?_, ?_⟩
      · rw [le_div_iff₀ power]
        nlinarith [reaches.low]
      · rw [div_le_iff₀ power]
        exact reaches.high
      · rintro (same | same)
        · rw [div_eq_iff power.ne'] at same
          have full : lowerReach m t = 1 / 2 := by
            have low := le_of_mul_le_mul_right (reaches.low.trans same.le) power
            linarith
          exact reaches.even (.inl (by rw [full, same]))
        · rw [div_eq_iff power.ne'] at same
          exact reaches.even (.inr same)
    rw [rounds.unique near]
    unfold settled
    rw [dif_neg canonical.pos.ne', if_pos canonical.small]
  · have half : (2 : ℚ) ^ e = 2 * 2 ^ (e - 1) := by
      rw [zpow_sub_one₀ two_ne_zero]
      ring
    have power' : (0 : ℚ) < 2 ^ (e - 1) := zpow_pos two_pos _
    have reach : lowerReach (2 ^ 52) e = 1 / 4 := if_pos ⟨rfl, above⟩
    have low := reaches.low
    rw [reach, half] at low
    rw [half] at high
    have near : Rounds (v / 2 ^ (e - 1)) (2 ^ 53) := by
      refine ⟨?_, ?_, fun _ => by decide⟩
      · rw [le_div_iff₀ power']
        push_cast at low ⊢
        linarith
      · rw [div_le_iff₀ power']
        push_cast at high ⊢
        nlinarith
    rw [rounds.unique near]
    unfold settled
    rw [dif_neg (by decide), if_neg (by decide)]
    congr 1
    exact sub_add_cancel e 1

/-- A product with enough bits is rounded to the nearest double. -/
theorem mul_roundsTo {s s' : Sign} {m m' : ℕ} {e e' : ℤ} (pos : 0 < m) (pos' : 0 < m')
    (fine : 52 ≤ (m * m').log2) :
    RoundsTo (s * s') (m * 2 ^ e * (m' * 2 ^ e'))
      (mul Format.binary64 (.finite s m e pos) (.finite s' m' e' pos')) := by
  have rounded := roundWithAccuracy_roundsTo (e := e + e') (shows_exact (m * m')) (.inl fine) (s * s')
  have value : (((m * m' : ℕ) : ℚ)) * 2 ^ (e + e') = m * 2 ^ e * (m' * 2 ^ e') := by
    rw [zpow_add₀ two_ne_zero]
    push_cast
    ring
  rwa [value] at rounded

theorem log2_shiftLeft {m : ℕ} (pos : 0 < m) (k : ℕ) : (m <<< k).log2 = m.log2 + k := by
  have above := Nat.log2_self_le pos.ne'
  have below := Nat.lt_log2_self (n := m)
  rw [Nat.shiftLeft_eq, Nat.log2_eq_iff (by positivity)]
  refine ⟨?_, ?_⟩
  · rw [pow_add]
    exact Nat.mul_le_mul_right _ above
  · rw [add_right_comm, pow_add]
    exact Nat.mul_lt_mul_of_pos_right below (by positivity)

/-- A number that is given exactly is rounded to the nearest double. -/
theorem round_roundsTo {s : Sign} {m : ℕ} {e : ℤ} (pos : 0 < m) :
    RoundsTo s (m * 2 ^ e) (UnpackedFloat.round Format.binary64 s m e) := by
  unfold UnpackedFloat.round decreaseExponent
  rw [targetExponent_eq]
  dsimp only
  generalize shift : (e - max ((m.log2 : ℤ) + e - 52) (-1074)).toNat = k
  have log := log2_shiftLeft pos k
  have rounded := roundWithAccuracy_roundsTo (e := e - k) (shows_exact (m <<< k)) (by omega) s
  have value : ((m <<< k : ℕ) : ℚ) * 2 ^ (e - k) = m * 2 ^ e := by
    rw [Nat.shiftLeft_eq, zpow_sub₀ two_ne_zero, zpow_natCast]
    push_cast
    field_simp
  rwa [value] at rounded

/-- A quotient is rounded to the nearest double. -/
theorem div_roundsTo {s s' : Sign} {m m' : ℕ} {e e' : ℤ} (pos : 0 < m) (pos' : 0 < m') :
    RoundsTo (s / s') (m * 2 ^ e / (m' * 2 ^ e'))
      (div Format.binary64 (.finite s m e pos) (.finite s' m' e' pos')) := by
  have magnitude : Format.binary64.targetExponent (totalExponent m e - totalExponent m' e') =
      max ((m.log2 : ℤ) + e - m'.log2 - e' - 53) (-1074) := by
    have least : Format.binary64.minExponent = -1074 := by decide
    have bits : (Format.binary64.mantissaBits : ℤ) = 53 := by decide
    unfold Format.targetExponent totalExponent
    rw [least, bits]
    omega
  unfold div divCore
  dsimp only
  rw [magnitude]
  generalize target : min (e - e') (max ((m.log2 : ℤ) + e - m'.log2 - e' - 53) (-1074)) = t
  generalize shift : (e - e' - t).toNat = k
  have log := log2_shiftLeft pos k
  have fine : 52 ≤ (m <<< k / m').log2 ∨ t ≤ -1074 := by
    by_cases lowest : t ≤ -1074
    · exact .inr lowest
    · have bits : m'.log2 + 53 ≤ (m <<< k).log2 := by omega
      have some : m <<< k ≠ 0 := by
        intro none
        rw [none, Nat.log2_zero] at bits
        omega
      have large : 2 ^ 52 * m' ≤ m <<< k := by
        have below := Nat.lt_log2_self (n := m')
        have above := (Nat.le_log2 some).mp bits
        have power : 2 ^ (m'.log2 + 53) = 2 ^ 52 * 2 ^ (m'.log2 + 1) := by
          rw [← pow_add]
          congr 1
          omega
        have scaled := Nat.mul_le_mul_left (2 ^ 52) below.le
        omega
      have quotient : 2 ^ 52 ≤ m <<< k / m' := (Nat.le_div_iff_mul_le pos').mpr large
      exact .inl ((Nat.le_log2 (by omega)).mpr quotient)
  have shows := shows_fraction (m <<< k / m') (Nat.mod_lt (m <<< k) pos')
  have rounded := roundWithAccuracy_roundsTo (e := t) shows fine (s / s')
  have value : (((m <<< k / m' : ℕ) : ℚ) + (m <<< k % m' : ℕ) / m') * 2 ^ t = m * 2 ^ e / (m' * 2 ^ e') := by
    have nonzero : (m' : ℚ) ≠ 0 := by exact_mod_cast pos'.ne'
    have split : (m' : ℚ) * (m <<< k / m' : ℕ) + (m <<< k % m' : ℕ) = m * 2 ^ k := by
      have shifted : ((m <<< k : ℕ) : ℚ) = m * 2 ^ k := by
        rw [Nat.shiftLeft_eq]
        push_cast
        rfl
      rw [← shifted]
      exact_mod_cast Nat.div_add_mod (m <<< k) m'
    have exponents : (2 : ℚ) ^ k * 2 ^ t = 2 ^ e / 2 ^ e' := by
      rw [← zpow_natCast, ← zpow_add₀ two_ne_zero, ← zpow_sub₀ two_ne_zero]
      congr 1
      omega
    calc (((m <<< k / m' : ℕ) : ℚ) + (m <<< k % m' : ℕ) / m') * 2 ^ t
        = (m' * (m <<< k / m' : ℕ) + (m <<< k % m' : ℕ)) / m' * 2 ^ t := by field_simp
      _ = m / m' * (2 ^ k * 2 ^ t) := by rw [split]; ring
      _ = m * 2 ^ e / (m' * 2 ^ e') := by rw [exponents]; field_simp
  rwa [value] at rounded

end LazyExpr
