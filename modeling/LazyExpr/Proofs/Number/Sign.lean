import Mathlib
import LazyExpr.Number.Binary

namespace LazyExpr

open Float.Model (UnpackedFloat Format)
open Float.Model.UnpackedFloat

/-- The sign of a double, which is not set where there is no number. -/
def signOf : UnpackedFloat → Sign
  | .infinity s | .zero s | .finite s _ _ _ => s
  | .notANumber => .positive

/-- Rounding keeps the sign, and so does everything that ends with it. -/
theorem signOf_round {mantissa : Nat} {exponent : Int} {accuracy : Accuracy} (s : Sign) :
    signOf (roundWithAccuracy Format.binary64 s mantissa exponent accuracy) = s := by
  unfold roundWithAccuracy
  dsimp only
  split <;> rfl

theorem signOf_div {a b : UnpackedFloat} (positive : signOf a = .positive) (positive' : signOf b = .positive) :
    signOf (div Format.binary64 a b) = .positive := by
  cases a <;> cases b <;> first | rfl | (cases positive; cases positive'; first | rfl | exact signOf_round _)

theorem signOf_mul {a b : UnpackedFloat} (positive : signOf a = .positive) (positive' : signOf b = .positive) :
    signOf (mul Format.binary64 a b) = .positive := by
  cases a <;> cases b <;> first | rfl | (cases positive; cases positive'; first | rfl | exact signOf_round _)

theorem signOf_ofScientific (m : Nat) (e : Int) :
    signOf (UnpackedFloat.ofScientific Format.binary64 m e) = .positive := by
  unfold UnpackedFloat.ofScientific
  split
  · rfl
  · split
    · rfl
    · split
      · rfl
      · split
        · exact signOf_mul rfl rfl
        · exact signOf_div rfl rfl

theorem signOf_ofNat (n : Nat) : signOf (UnpackedFloat.ofNat Format.binary64 n) = .positive := by
  unfold UnpackedFloat.ofNat UnpackedFloat.ofInt UnpackedFloat.normalize
  split
  · rename_i negative
    have below : (n : Int) < 0 := Int.compare_eq_lt.mp negative
    omega
  · rfl
  · unfold UnpackedFloat.round
    dsimp only
    exact signOf_round _

theorem unpackSign_pack (u : UnpackedFloat) : unpackSign (pack Format.binary64 u) = (signOf u).toBitVec := by
  fun_cases pack Format.binary64 u with
  | case1 => exact unpackSign_packComponents _ _ _
  | case2 => exact unpackSign_packComponents _ _ _
  | case3 => exact unpackSign_packComponents _ _ _
  | case4 => exact unpackSign_packComponents _ _ _
  | case5 => exact unpackSign_packComponents _ _ _
  | case6 => exact unpackSign_packComponents _ _ _

theorem signOf_unpack {bits : BitVec Format.binary64.numBits} (clear : unpackSign bits = 0#1) :
    signOf (unpack Format.binary64 bits) = .positive := by
  have positive : Sign.ofBitVec (unpackSign bits) = .positive := by rw [clear]; rfl
  unfold unpack
  dsimp only
  rw [positive]
  split
  · split <;> rfl
  · split
    · split <;> rfl
    · rfl

/-- The sign bit of the double is not set. -/
def SignClear (x : Float) : Prop := @unpackSign Format.binary64 x.toBits.toBitVec = 0#1

theorem signClear_pack {u : UnpackedFloat} (positive : signOf u = .positive) :
    SignClear (Float.ofModel (Float.Model.pack u)) := by
  show unpackSign (pack Format.binary64 u) = 0#1
  rw [unpackSign_pack, positive]
  rfl

theorem signClear_div {x y : Float} (clear : SignClear x) (clear' : SignClear y) : SignClear (x / y) :=
  signClear_pack (signOf_div (signOf_unpack clear) (signOf_unpack clear'))

theorem signClear_powers : ∀ i : Fin Float.exactlyRepresentablePowersOfTen.size,
    @unpackSign Format.binary64 Float.exactlyRepresentablePowersOfTen[i].toBits.toBitVec = 0#1 := by
  decide +kernel

/-- A decimal without a sign is read as a double without a sign. -/
theorem signClear_ofScientific (m e : Nat) : SignClear (Float.ofScientific m true e) := by
  unfold Float.ofScientific
  split
  · rename_i small
    have bound : e < Float.exactlyRepresentablePowersOfTen.size := Nat.lt_succ_of_le small.2
    exact signClear_div (signClear_pack (signOf_ofNat _)) (signClear_powers ⟨e, bound⟩)
  · exact signClear_pack (signOf_ofScientific m _)

/-- The comparison of doubles is that of what they stand for. -/
theorem lt_iff_unpack {x y : Float} :
    x < y ↔ UnpackedFloat.lt x.toModel.unpack y.toModel.unpack = true :=
  decide_eq_true_iff

theorem unpack_zero : (0 : Float).toModel.unpack = .zero .positive := by rfl

/-- A double without a sign is not below zero. -/
theorem not_lt_zero_of_signClear {x : Float} (clear : SignClear x) : ¬ x < 0 := by
  have positive : signOf x.toModel.unpack = .positive := signOf_unpack clear
  rw [lt_iff_unpack, unpack_zero]
  generalize x.toModel.unpack = u at positive
  cases u with
  | finite => cases positive; exact nofun
  | infinity => cases positive; exact nofun
  | _ => exact nofun

theorem Binary.negative_of_signClear {x : Float} (clear : SignClear x) {negative : Bool} {mantissa : Nat}
    {exponent : Int} (finite : Binary.ofFloat x = .finite negative mantissa exponent) : negative = false := by
  have bit : (@unpackSign Format.binary64 x.toBits.toBitVec).toNat = 0 := by rw [clear]; rfl
  have even : x.toBits.toNat >>> 63 % 2 = 0 := bit
  have sign : (x.toBits.toNat >>> 63 == 1) = false := by
    rw [beq_eq_false_iff_ne]
    omega
  unfold Binary.ofFloat at finite
  dsimp only at finite
  rw [sign] at finite
  split at finite
  · split at finite <;> cases finite
  · split at finite
    · cases finite
      rfl
    · cases finite
      rfl

end LazyExpr
