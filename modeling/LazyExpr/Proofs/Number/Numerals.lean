import Mathlib
import LazyExpr.Proofs.Number.Decimals
import LazyExpr.Proofs.Number.Digits
import LazyExpr.Proofs.Number.Shortest

namespace LazyExpr

namespace Numeral

theorem value?_pointed {digits : List Char} (whole : ∀ c ∈ digits, c.isDigit) (places : List Char) :
    value? (digits ++ '.' :: places) =
      some (.float (Float.ofScientific (ofDigits (digits ++ places)) true places.length)) := by
  have plain : ∀ c ∈ digits, decide (c ≠ '.') = true := fun c member =>
    decide_eq_true (digit_ne_point (whole c member))
  have behind : (digits ++ '.' :: places).dropWhile (· ≠ '.') = '.' :: places := by
    rw [List.dropWhile_append_of_pos plain]
    rfl
  have front : (digits ++ '.' :: places).takeWhile (· ≠ '.') = digits := by
    rw [List.takeWhile_append_of_pos plain]
    exact List.append_nil digits
  simp only [value?, behind, front]

theorem ofDigits_zeros (n places : ℕ) :
    ofDigits (Nat.toDigits 10 n ++ List.replicate places '0') = n * 10 ^ places := by
  have appended := Nat.ofDigitChars_append (b := 10) (l := Nat.toDigits 10 n) (m := List.replicate places '0') 0
  rw [Nat.ofDigitChars_ten_toDigits, Nat.ofDigitChars_replicate_zero, Nat.mul_comm] at appended
  exact appended

theorem zeros_ofDigits (n places : ℕ) : ofDigits (List.replicate places '0' ++ Nat.toDigits 10 n) = n := by
  have appended := Nat.ofDigitChars_append (b := 10) (l := List.replicate places '0') (m := Nat.toDigits 10 n) 0
  rw [Nat.ofDigitChars_replicate_zero, Nat.mul_zero, Nat.ofDigitChars_ten_toDigits] at appended
  exact appended

end Numeral

theorem withPoint_whole {text : String} (digits : ∀ c ∈ text.toList, c.isDigit) :
    withPoint text = text ++ ".0" := by
  have none : text.toList.contains '.' = false := by
    rw [List.contains_eq_mem, decide_eq_false_iff_not]
    exact fun member => digit_ne_point (digits '.' member) rfl
  unfold withPoint
  rw [none]
  rfl

theorem withPoint_pointed {text : String} {digits places : List Char}
    (pointed : text.toList = digits ++ '.' :: places) : withPoint text = text := by
  have some : text.toList.contains '.' = true := by
    rw [List.contains_eq_mem, decide_eq_true_eq, pointed]
    exact List.mem_append_right _ List.mem_cons_self
  unfold withPoint
  rw [some]
  rfl

/-- A decimal is read as the double next to its value. -/
theorem Decimal.read_positional (d : Decimal) : ∃ digits places : ℕ, (digits : ℚ) / 10 ^ places = d.value ∧
    Numeral.value? (withPoint d.positional).toList = some (.float (Float.ofScientific digits true places)) := by
  have digits : ∀ c ∈ Nat.toDigits 10 d.digits, c.isDigit := fun _ member =>
    Nat.isDigit_of_mem_toDigits (by decide) (by decide) member
  unfold Decimal.positional
  dsimp only
  split
  · rename_i whole
    -- The point is put behind all digits, with one more zero.
    have chars : (String.ofList (Nat.toDigits 10 d.digits) ++ zeros d.exponent.toNat).toList =
        Nat.toDigits 10 d.digits ++ List.replicate d.exponent.toNat '0' := by
      simp [zeros]
    have all : ∀ c ∈ Nat.toDigits 10 d.digits ++ List.replicate d.exponent.toNat '0', c.isDigit := by
      refine List.forall_mem_append.mpr ⟨digits, fun c member => ?_⟩
      rw [List.eq_of_mem_replicate member]
      decide
    refine ⟨d.digits * 10 ^ (d.exponent.toNat + 1), 1, ?_, ?_⟩
    · have exponent : d.exponent = (d.exponent.toNat : ℤ) := (Int.toNat_of_nonneg whole).symm
      unfold Decimal.value
      rw [exponent, zpow_natCast, Int.toNat_natCast]
      push_cast
      rw [pow_succ]
      field_simp
    · have point : (".0" : String).toList = ['.', '0'] := rfl
      have zeros : List.replicate d.exponent.toNat '0' ++ ['0'] = List.replicate (d.exponent.toNat + 1) '0' :=
        List.replicate_succ'.symm
      rw [withPoint_whole (by rw [chars]; exact all), String.toList_append, chars, point,
        Numeral.value?_pointed all, List.append_assoc, zeros, Numeral.ofDigits_zeros]
      rfl
  · rename_i fraction
    have exponent : d.exponent = -((-d.exponent).toNat : ℤ) := by omega
    have value : (d.digits : ℚ) / 10 ^ (-d.exponent).toNat = d.value := by
      unfold Decimal.value
      rw [exponent, zpow_neg, zpow_natCast, neg_neg, Int.toNat_natCast]
      rfl
    generalize (-d.exponent).toNat = places at value ⊢
    refine ⟨d.digits, places, value, ?_⟩
    split
    · rename_i inside
      have chars := pointed_text ((Nat.toDigits 10 d.digits).take ((Nat.toDigits 10 d.digits).length - places))
        ((Nat.toDigits 10 d.digits).drop ((Nat.toDigits 10 d.digits).length - places))
      rw [withPoint_pointed chars, chars,
        Numeral.value?_pointed fun c member => digits c (List.mem_of_mem_take member),
        List.take_append_drop, Numeral.ofDigits_toDigits, List.length_drop]
      congr 3
      omega
    · rename_i small
      have chars (n : ℕ) : ("0." ++ zeros n ++ String.ofList (Nat.toDigits 10 d.digits)).toList =
          ['0'] ++ '.' :: (List.replicate n '0' ++ Nat.toDigits 10 d.digits) := by
        simp [zeros]
      have more (n : ℕ) : ['0'] ++ (List.replicate n '0' ++ Nat.toDigits 10 d.digits) =
          List.replicate (n + 1) '0' ++ Nat.toDigits 10 d.digits := rfl
      rw [withPoint_pointed (chars _), chars, Numeral.value?_pointed (List.forall_mem_singleton.mpr (by decide)),
        more, Numeral.zeros_ofDigits, List.length_append, List.length_replicate]
      congr 3
      omega

/-- What is written for a finite double without a sign reads back. -/
theorem readsBack_of_unsigned {x : Float} {m : ℕ} {e : ℤ} (unsigned : Binary.ofFloat x = .finite false m e) :
    ReadsBack x := by
  unfold ReadsBack floatNumeral floatText
  rw [unsigned]
  rcases Nat.eq_zero_or_pos m with rfl | pos
  · obtain ⟨_, _, _, _, lowest⟩ := Binary.fields_of_finite unsigned
    obtain rfl : e = -1074 := lowest.resolve_left (by decide)
    have read : Numeral.value? (withPoint (signText false ++ "0")).toList =
        some (.float (Float.ofScientific 0 true 1)) := rfl
    have zero : Binary.ofFloat (Float.ofScientific 0 true 1) = .finite false 0 (-1074) := by decide +kernel
    rw [Binary.eq_of_finite unsigned zero]
    exact read
  · obtain ⟨n, rfl⟩ := Nat.exists_eq_succ_of_ne_zero pos.ne'
    obtain ⟨digits, places, value, read⟩ := (shortestDecimal (n + 1) e).read_positional
    have reaches := shortestDecimal_reaches (Binary.canonical_of_finite unsigned pos)
    rw [← value] at reaches
    rw [ofScientific_eq_of_reaches unsigned pos reaches] at read
    show Numeral.value? (withPoint ("" ++ (shortestDecimal (n + 1) e).positional)).toList = _
    rw [String.empty_append]
    exact read

end LazyExpr
