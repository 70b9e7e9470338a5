import Mathlib
import LazyExpr.Proofs.Number.Sign

namespace LazyExpr

open Float.Model (UnpackedFloat Format)
open Float.Model.UnpackedFloat

/-- The magnitudes `mantissa * 2 ^ exponent` that doubles have: 53 bits, with fewer only at the lowest
exponent. -/
structure IsCanonical (mantissa : Nat) (exponent : Int) : Prop where
  pos : 0 < mantissa
  small : mantissa < 2 ^ 53
  low : -1074 ≤ exponent
  high : exponent ≤ 971
  normal : 2 ^ 52 ≤ mantissa ∨ exponent = -1074

/-- The fields of a double as numbers. -/
theorem toNat_fields (bits : BitVec 64) :
    (@unpackMantissa Format.binary64 bits).toNat = bits.toNat % 2 ^ 52 ∧
      (@unpackExponent Format.binary64 bits).toNat = bits.toNat / 2 ^ 52 % 2 ^ 11 ∧
      (@unpackSign Format.binary64 bits).toNat = bits.toNat / 2 ^ 63 := by
  have bound := bits.isLt
  refine ⟨?_, ?_, ?_⟩
  · simp [unpackMantissa, BitVec.extractLsb]
  · simp [unpackExponent, BitVec.extractLsb, Nat.shiftRight_eq_div_pow]
  · simp [unpackSign, BitVec.extractLsb, Nat.shiftRight_eq_div_pow]
    omega

theorem toNat_implicit (fraction : BitVec 52) : (1#1 ++ fraction).toNat = 2 ^ 52 + fraction.toNat := by
  rw [BitVec.toNat_append, ← Nat.shiftLeft_add_eq_or_of_lt fraction.isLt]
  rfl

def isNegative : Sign → Bool
  | .negative => true
  | .positive => false

/-- What an unpacked double stands for. -/
def Binary.ofUnpacked : UnpackedFloat → Binary
  | .notANumber => .nan
  | .infinity s => .infinite (isNegative s)
  | .zero s => .finite (isNegative s) 0 (-1074)
  | .finite s mantissa exponent _ => .finite (isNegative s) mantissa exponent

theorem isNegative_ofBitVec (sign : BitVec 1) : isNegative (Sign.ofBitVec sign) = (sign.toNat == 1) := by
  have bit : sign = 0#1 ∨ sign = 1#1 := by
    have bound := sign.isLt
    rw [← BitVec.toNat_inj, ← BitVec.toNat_inj]
    simp only [BitVec.toNat_ofNat]
    omega
  rcases bit with rfl | rfl <;> rfl

theorem Binary.ofFloat_eq_ofUnpacked (x : Float) : Binary.ofFloat x = Binary.ofUnpacked x.toModel.unpack := by
  obtain ⟨fraction, exponent, sign⟩ := toNat_fields x.toModel.toBits.toBitVec
  have bits : x.toModel.toBits.toBitVec.toNat = x.toBits.toNat := rfl
  rw [bits] at fraction exponent sign
  rw [← Nat.shiftRight_eq_div_pow] at exponent sign
  unfold Binary.ofFloat Float.Model.unpack unpack
  dsimp only
  have all : @unpackExponent Format.binary64 x.toModel.toBits.toBitVec = -1#11 ↔
      x.toBits.toNat >>> 52 % 2048 = 2047 := by
    rw [← BitVec.toNat_inj, exponent]
    rfl
  have none :
      @unpackExponent Format.binary64 x.toModel.toBits.toBitVec = 0#11 ↔ x.toBits.toNat >>> 52 % 2048 = 0 := by
    rw [← BitVec.toNat_inj, exponent]
    rfl
  have empty :
      @unpackMantissa Format.binary64 x.toModel.toBits.toBitVec = 0#52 ↔ x.toBits.toNat % leadingBit = 0 := by
    rw [← BitVec.toNat_inj, fraction]
    rfl
  have negative := isNegative_ofBitVec (@unpackSign Format.binary64 x.toModel.toBits.toBitVec)
  rw [sign] at negative
  have implicit := toNat_implicit (@unpackMantissa Format.binary64 x.toModel.toBits.toBitVec)
  rw [fraction] at implicit
  have bias : (Format.binary64.exponentBias : Int) = 1023 := by decide
  by_cases special : x.toBits.toNat >>> 52 % 2048 = 2047
  · rw [if_pos special, if_pos (all.mpr special)]
    by_cases zero : x.toBits.toNat % leadingBit = 0
    · rw [if_pos zero, if_pos (empty.mpr zero), ← negative]
      rfl
    · rw [if_neg zero, if_neg (mt empty.mp zero)]
      rfl
  · rw [if_neg special, if_neg (mt all.mp special)]
    by_cases subnormal : x.toBits.toNat >>> 52 % 2048 = 0
    · rw [if_pos subnormal, if_pos (none.mpr subnormal)]
      by_cases zero : x.toBits.toNat % leadingBit = 0
      · rw [dif_pos (empty.mpr zero), zero, ← negative]
        rfl
      · rw [dif_neg (mt empty.mp zero), ← negative]
        simp only [ofUnpacked, Binary.finite.injEq, true_and, fraction, exponent, bias]
        refine ⟨rfl, ?_⟩
        rw [show (2:Nat)^11 = 2048 from rfl, subnormal]
        rfl
    · rw [if_neg subnormal, if_neg (mt none.mp subnormal), ← negative]
      simp only [ofUnpacked, Binary.finite.injEq, true_and, implicit, exponent, bias]
      refine ⟨rfl, ?_⟩
      rw [show (2:Nat)^11 = 2048 from rfl]
      omega

namespace Binary

variable {x y : Float} {negative : Bool} {mantissa : Nat} {exponent : Int}

theorem leadingBit_eq : leadingBit = 2 ^ 52 := rfl

/-- The fields of a finite double. -/
theorem fields_of_finite (finite : ofFloat x = .finite negative mantissa exponent) :
    x.toBits.toNat = (if negative then 2 ^ 63 else 0) + (if mantissa < 2 ^ 52 then mantissa
      else (exponent + 1074).toNat * 2 ^ 52 + mantissa) ∧
      mantissa < 2 ^ 53 ∧ -1074 ≤ exponent ∧ exponent ≤ 971 ∧ (2 ^ 52 ≤ mantissa ∨ exponent = -1074) := by
  have bound : x.toBits.toNat < 2 ^ 64 := x.toBits.toNat_lt
  unfold ofFloat at finite
  simp only [Nat.shiftRight_eq_div_pow, leadingBit_eq] at finite
  generalize x.toBits.toNat = n at *
  split at finite
  · split at finite <;> cases finite
  · have sign : (if (n / 2 ^ 63 == 1) then 2 ^ 63 else 0) = n / 2 ^ 63 * 2 ^ 63 := by
      by_cases top : n / 2 ^ 63 = 1
      · rw [top]
        rfl
      · have none : n / 2 ^ 63 = 0 := by omega
        rw [none]
        rfl
    split at finite
    · obtain ⟨rfl, rfl, rfl⟩ := Binary.finite.inj finite
      have small : n % 2 ^ 52 < 2 ^ 52 := Nat.mod_lt _ (by decide)
      rw [sign, if_pos small]
      omega
    · obtain ⟨rfl, rfl, rfl⟩ := Binary.finite.inj finite
      have large : ¬ 2 ^ 52 + n % 2 ^ 52 < 2 ^ 52 := by omega
      rw [sign, if_neg large]
      omega

theorem canonical_of_finite (finite : ofFloat x = .finite negative mantissa exponent) (pos : 0 < mantissa) :
    IsCanonical mantissa exponent := by
  obtain ⟨_, small, low, high, normal⟩ := fields_of_finite finite
  exact ⟨pos, small, low, high, normal⟩

/-- A finite double is determined by what it stands for. -/
theorem eq_of_finite (finite : ofFloat x = .finite negative mantissa exponent)
    (finite' : ofFloat y = .finite negative mantissa exponent) : x = y := by
  have bits : x.toBits.toNat = y.toBits.toNat := (fields_of_finite finite).1.trans (fields_of_finite finite').1.symm
  have same : x.toBits = y.toBits := UInt64.toNat_inj.mp bits
  obtain ⟨⟨_, _⟩⟩ := x
  obtain ⟨⟨_, _⟩⟩ := y
  cases same
  rfl

theorem unpack_of_finite (finite : ofFloat x = .finite negative mantissa exponent) (pos : 0 < mantissa) :
    x.toModel.unpack = .finite (if negative then .negative else .positive) mantissa exponent pos := by
  rw [ofFloat_eq_ofUnpacked] at finite
  generalize x.toModel.unpack = u at finite
  cases u with
  | notANumber => cases finite
  | infinity s => cases finite
  | zero s =>
    cases finite
    cases pos
  | finite s m e h =>
    cases finite
    cases s <;> rfl

end Binary

theorem toNat_packComponents (s : Sign) (exponent : BitVec 11) (fraction : BitVec 52) :
    (packComponents Format.binary64 s exponent fraction).toNat =
      (if isNegative s then 2 ^ 63 else 0) + exponent.toNat * 2 ^ 52 + fraction.toNat := by
  have small := fraction.isLt
  have medium := exponent.isLt
  unfold packComponents
  rw [BitVec.toNat_append, BitVec.toNat_append, ← Nat.shiftLeft_add_eq_or_of_lt small,
    ← Nat.shiftLeft_add_eq_or_of_lt medium]
  cases s with
  | negative =>
    simp [Nat.shiftLeft_eq, Sign.toBitVec, isNegative]
    omega
  | positive => simp [Nat.shiftLeft_eq, Sign.toBitVec, isNegative]

theorem toNat_pack {s : Sign} {m : Nat} {e : Int} (canonical : IsCanonical m e) :
    (pack Format.binary64 (.finite s m e canonical.pos)).toNat =
      (if isNegative s then 2 ^ 63 else 0) + (if m < 2 ^ 52 then m else (e + 1074).toNat * 2 ^ 52 + m) := by
  obtain ⟨pos, small, low, high, normal⟩ := canonical
  have biased : (e + (Format.binary64.exponentBias : Int) + Format.binary64.mantissaBitsWithoutImplicit).toNat =
      (e + 1075).toNat := by
    have bias : (Format.binary64.exponentBias : Int) = 1023 := by decide
    have bits : (Format.binary64.mantissaBitsWithoutImplicit : Int) = 52 := rfl
    rw [bias, bits, Int.add_assoc]
    rfl
  have fits : ¬ 2 ^ Format.binary64.exponentBits ≤ (e + 1075).toNat + 1 := by
    show ¬ 2 ^ 11 ≤ (e + 1075).toNat + 1
    omega
  have log : m.log2 + 1 = Format.binary64.mantissaBits ↔ 2 ^ 52 ≤ m := by
    show m.log2 + 1 = 53 ↔ 2 ^ 52 ≤ m
    have above := Nat.le_log2 pos.ne' (k := 52)
    have below := Nat.log2_lt pos.ne' (k := 53)
    omega
  unfold pack
  simp only [biased, fits, ↓reduceIte, log]
  split
  · rename_i large
    rw [toNat_packComponents, if_neg (Nat.not_lt.mpr large), BitVec.toNat_ofNat, BitVec.toNat_ofNat]
    omega
  · rename_i large
    rw [toNat_packComponents, if_pos (Nat.not_le.mp large), BitVec.toNat_ofNat, BitVec.toNat_ofNat]
    omega

theorem ofFloat_of_fields {x : Float} {s : Sign} {field fraction : Nat} (inField : field < 2 ^ 11)
    (inFraction : fraction < 2 ^ 52)
    (bits : x.toBits.toNat = (if isNegative s then 2 ^ 63 else 0) + field * 2 ^ 52 + fraction) :
    Binary.ofFloat x =
      if field = 2047 then if fraction = 0 then .infinite (isNegative s) else .nan
      else if field = 0 then .finite (isNegative s) fraction (-1074)
      else .finite (isNegative s) (2 ^ 52 + fraction) (field - 1075) := by
  unfold Binary.ofFloat
  simp only [Nat.shiftRight_eq_div_pow, Binary.leadingBit_eq]
  generalize x.toBits.toNat = n at bits ⊢
  have sign : (n / 2 ^ 63 == 1) = isNegative s := by
    cases s with
    | negative =>
      rw [isNegative, if_pos rfl] at bits
      rw [isNegative, beq_iff_eq]
      omega
    | positive =>
      rw [isNegative, if_neg nofun] at bits
      rw [isNegative, beq_eq_false_iff_ne]
      omega
  have middle : n / 2 ^ 52 % 2048 = field := by
    split at bits <;> omega
  have low : n % 2 ^ 52 = fraction := by
    split at bits <;> omega
  rw [sign, middle, low]

/-- What is packed is what is stored. -/
theorem ofFloat_pack {s : Sign} {m : Nat} {e : Int} (canonical : IsCanonical m e) :
    Binary.ofFloat (.ofModel (.pack (.finite s m e canonical.pos))) = .finite (isNegative s) m e := by
  have bits : (Float.ofModel (.pack (.finite s m e canonical.pos))).toBits.toNat = _ := toNat_pack canonical
  obtain ⟨pos, small, low, high, normal⟩ := canonical
  by_cases subnormal : m < 2 ^ 52
  · have lowest : e = -1074 := normal.resolve_left (Nat.not_le.mpr subnormal)
    rw [if_pos subnormal] at bits
    rw [ofFloat_of_fields (Nat.two_pow_pos 11) subnormal (by rw [bits, Nat.zero_mul, Nat.add_zero]), lowest]
    rfl
  · rw [if_neg subnormal] at bits
    have field : (e + 1075).toNat < 2047 ∧ (e + 1075).toNat ≠ 0 := by omega
    have mantissa : 2 ^ 52 + (m - 2 ^ 52) = m := by omega
    have exponent : ((e + 1075).toNat : Int) - 1075 = e := by omega
    have fields : (Float.ofModel (.pack (.finite s m e pos))).toBits.toNat =
        (if isNegative s then 2 ^ 63 else 0) + (e + 1075).toNat * 2 ^ 52 + (m - 2 ^ 52) := by omega
    rw [ofFloat_of_fields (by omega) (by omega) fields, if_neg (Nat.ne_of_lt field.1), if_neg field.2, mantissa,
      exponent]

/-- What is packed can be unpacked again. -/
theorem unpack_pack {s : Sign} {m : Nat} {e : Int} (canonical : IsCanonical m e) :
    (Float.Model.pack (.finite s m e canonical.pos)).unpack = .finite s m e canonical.pos := by
  have unpacked := Binary.unpack_of_finite (ofFloat_pack (s := s) canonical) canonical.pos
  cases s <;> exact unpacked

end LazyExpr
