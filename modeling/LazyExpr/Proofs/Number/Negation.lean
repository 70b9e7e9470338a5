import Mathlib
import LazyExpr.Proofs.Number.Numerals

namespace LazyExpr

open Float.Model (UnpackedFloat Format)
open Float.Model.UnpackedFloat

namespace Binary

variable {x : Float} {negative : Bool} {mantissa : Nat} {exponent : Int}

/-- A finite double is below zero if its sign is set, unless it is zero itself. -/
theorem lt_zero_iff (finite : ofFloat x = .finite negative mantissa exponent) :
    x < 0 ↔ negative = true ∧ 0 < mantissa := by
  rw [lt_iff_unpack, unpack_zero]
  rw [ofFloat_eq_ofUnpacked] at finite
  generalize x.toModel.unpack = u at finite ⊢
  cases u with
  | notANumber => cases finite
  | infinity s => cases finite
  | zero s =>
    cases finite
    exact iff_of_false nofun fun both => absurd both.2 (Nat.lt_irrefl 0)
  | finite s m e some =>
    cases finite
    cases s with
    | negative => exact iff_of_true rfl ⟨rfl, some⟩
    | positive => exact iff_of_false nofun fun both => Bool.noConfusion both.1

/-- The negation of a double with its sign set has the same magnitude. -/
theorem ofFloat_neg (finite : ofFloat x = .finite true mantissa exponent) :
    ofFloat (-x) = .finite false mantissa exponent := by
  rcases Nat.eq_zero_or_pos mantissa with rfl | pos
  · obtain ⟨_, _, _, _, lowest⟩ := fields_of_finite finite
    obtain rfl : exponent = -1074 := lowest.resolve_left (by decide)
    have zero : ofFloat (-0.0) = .finite true 0 (-1074) := by decide +kernel
    rw [eq_of_finite finite zero]
    decide +kernel
  · have unpacked : x.toModel.unpack = .finite .negative mantissa exponent pos := unpack_of_finite finite pos
    have negated : -x = .ofModel (.pack (x.toModel.unpack.neg)) := rfl
    rw [negated, unpacked]
    exact ofFloat_pack (canonical_of_finite finite pos)

end Binary

/-- A sign in front does not matter for where the point goes. -/
theorem withPoint_sign (text : String) : withPoint ("-" ++ text) = "-" ++ withPoint text := by
  have contains : ("-" ++ text).toList.contains '.' = text.toList.contains '.' := by
    rw [String.toList_append]
    rfl
  unfold withPoint
  rw [contains]
  split
  · rfl
  · exact String.append_assoc

/-- A double with its sign set is written like its negation with a sign in front. -/
theorem floatNumeral_of_negative {x : Float} {m : Nat} {e : Int} (finite : Binary.ofFloat x = .finite true m e) :
    floatNumeral x = "-" ++ floatNumeral (-x) := by
  have negated := Binary.ofFloat_neg finite
  unfold floatNumeral floatText
  rw [finite, negated]
  cases m with
  | zero =>
    show withPoint ("-" ++ "0") = "-" ++ withPoint ("" ++ "0")
    rw [String.empty_append, withPoint_sign]
  | succ m =>
    show withPoint ("-" ++ (shortestDecimal (m + 1) e).positional) =
      "-" ++ withPoint ("" ++ (shortestDecimal (m + 1) e).positional)
    rw [String.empty_append, withPoint_sign]

/-- So is a negative integer. -/
theorem toString_of_negative {n : Int} (negative : n < 0) : toString n = "-" ++ toString (-n) := by
  obtain ⟨k, rfl⟩ := Int.exists_eq_neg_ofNat (Int.le_of_lt negative)
  cases k with
  | zero => cases negative
  | succ k =>
    rw [Int.neg_neg]
    rfl

end LazyExpr
