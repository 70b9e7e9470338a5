import Mathlib
import LazyExpr.Proofs.Number.Packing

namespace LazyExpr

open Float.Model (UnpackedFloat Format)
open Float.Model.UnpackedFloat

namespace Binary

/-- The number that a finite double stands for. -/
def value (negative : Bool) (mantissa : Nat) (exponent : Int) : ℚ :=
  if negative then -(mantissa * 2 ^ exponent) else mantissa * 2 ^ exponent

variable {m m' : Nat} {e e' : Int}

theorem magnitude_pos (canonical : IsCanonical m e) : (0 : ℚ) < m * 2 ^ e := by
  have pos : (0 : ℚ) < m := by exact_mod_cast canonical.pos
  exact mul_pos pos (zpow_pos two_pos e)

/-- The exponent decides first: what it leaves to the mantissa is less than the next power of two. -/
theorem magnitude_lt (canonical : IsCanonical m e) (canonical' : IsCanonical m' e') (below : e < e') :
    (m : ℚ) * 2 ^ e < m' * 2 ^ e' := by
  have small : (m : ℚ) < 2 ^ 53 := by exact_mod_cast canonical.small
  have normal : 2 ^ 52 ≤ m' := canonical'.normal.resolve_right (by have := canonical.low; omega)
  have large : (2 : ℚ) ^ 52 ≤ m' := by exact_mod_cast normal
  calc (m : ℚ) * 2 ^ e < 2 ^ 53 * 2 ^ e := mul_lt_mul_of_pos_right small (zpow_pos two_pos e)
    _ = 2 ^ 52 * 2 ^ (e + 1) := by rw [zpow_add_one₀ two_ne_zero]; ring
    _ ≤ m' * 2 ^ e' := mul_le_mul large (zpow_le_zpow_right₀ one_le_two below) (by positivity) (by positivity)

theorem compare_magnitudes (canonical : IsCanonical m e) (canonical' : IsCanonical m' e') :
    (compare e e').then (compare m m') = cmp ((m : ℚ) * 2 ^ e) (m' * 2 ^ e') := by
  rcases lt_trichotomy e e' with below | rfl | above
  · rw [Int.compare_eq_lt.mpr below, (cmp_eq_lt_iff _ _).mpr (magnitude_lt canonical canonical' below)]
    rfl
  · rw [Int.compare_eq_eq.mpr rfl, Ordering.eq_then, cmp_mul_pos_right (zpow_pos two_pos e),
      Nat.strictMono_cast.cmp_map_eq, cmp_eq_compare]
  · rw [Int.compare_eq_gt.mpr above, (cmp_eq_gt_iff _ _).mpr (magnitude_lt canonical' canonical above)]
    rfl

variable {x y : Float} {negative negative' : Bool}

/-- Finite doubles are compared as the numbers that they stand for. -/
theorem compare_unpack (finite : ofFloat x = .finite negative m e) (finite' : ofFloat y = .finite negative' m' e') :
    x.toModel.unpack.compare y.toModel.unpack = some (cmp (value negative m e) (value negative' m' e')) := by
  have canonical := canonical_of_finite finite
  have canonical' := canonical_of_finite finite'
  rw [ofFloat_eq_ofUnpacked] at finite finite'
  generalize x.toModel.unpack = u at finite ⊢
  generalize y.toModel.unpack = v at finite' ⊢
  have zero (s : Sign) (e : Int) : value (isNegative s) 0 e = 0 := by
    cases s <;> simp [value, isNegative]
  cases u with
  | notANumber => cases finite
  | infinity s => cases finite
  | zero s =>
    cases finite
    cases v with
    | notANumber => cases finite'
    | infinity s' => cases finite'
    | zero s' =>
      cases finite'
      rw [zero, zero, cmp_self_eq_eq]
      rfl
    | finite s' n f some =>
      cases finite'
      have positive := magnitude_pos (canonical' some)
      rw [zero]
      cases s' with
      | positive => exact congrArg _ ((cmp_eq_lt_iff _ _).mpr positive).symm
      | negative => exact congrArg _ ((cmp_eq_gt_iff _ _).mpr (neg_neg_of_pos positive)).symm
  | finite s m e some =>
    cases finite
    have positive := magnitude_pos (canonical some)
    cases v with
    | notANumber => cases finite'
    | infinity s' => cases finite'
    | zero s' =>
      cases finite'
      rw [zero]
      cases s with
      | positive => exact congrArg _ ((cmp_eq_gt_iff _ _).mpr positive).symm
      | negative => exact congrArg _ ((cmp_eq_lt_iff _ _).mpr (neg_neg_of_pos positive)).symm
    | finite s' n f some' =>
      cases finite'
      have positive' := magnitude_pos (canonical' some')
      have magnitudes := compare_magnitudes (canonical some) (canonical' some')
      cases s with
      | positive =>
        cases s' with
        | positive => exact congrArg _ magnitudes
        | negative => exact congrArg _ ((cmp_eq_gt_iff _ _).mpr ((neg_neg_of_pos positive').trans positive)).symm
      | negative =>
        cases s' with
        | positive => exact congrArg _ ((cmp_eq_lt_iff _ _).mpr ((neg_neg_of_pos positive).trans positive')).symm
        | negative =>
          have opposite := congrArg Ordering.swap magnitudes
          have antitone : StrictAnti fun v : ℚ => -v := fun _ _ => neg_lt_neg
          rw [cmp_swap, ← antitone.cmp_map_eq] at opposite
          exact congrArg _ opposite

theorem lt_iff_value (finite : ofFloat x = .finite negative m e) (finite' : ofFloat y = .finite negative' m' e') :
    x < y ↔ value negative m e < value negative' m' e' := by
  rw [lt_iff_unpack]
  unfold UnpackedFloat.lt
  rw [compare_unpack finite finite', ← cmp_eq_lt_iff, beq_iff_eq, Option.some_inj]

theorem le_iff_value (finite : ofFloat x = .finite negative m e) (finite' : ofFloat y = .finite negative' m' e') :
    x ≤ y ↔ value negative m e ≤ value negative' m' e' := by
  have unpacked : x ≤ y ↔ UnpackedFloat.le x.toModel.unpack y.toModel.unpack = true := decide_eq_true_iff
  rw [unpacked]
  unfold UnpackedFloat.le
  rw [compare_unpack finite finite', Option.any_some, Ordering.isLE_iff_ne_gt, cmp_eq_gt_iff, not_lt]

end Binary
end LazyExpr
