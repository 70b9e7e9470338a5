import Mathlib.Data.List.TakeWhile
import LazyExpr.Number.Numeral
import LazyExpr.Number.Positional

namespace LazyExpr

/-- Digits, and perhaps a point with digits behind it. -/
inductive IsNumeral : List Char → Prop
  | whole {digits : List Char} : digits ≠ [] → (∀ c ∈ digits, c.isDigit) → IsNumeral digits
  | pointed {digits places : List Char} : digits ≠ [] → (∀ c ∈ digits, c.isDigit) →
      places ≠ [] → (∀ c ∈ places, c.isDigit) → IsNumeral (digits ++ '.' :: places)

theorem isNumeral_toDigits (n : Nat) : IsNumeral (Nat.toDigits 10 n) :=
  .whole Nat.toDigits_ne_nil fun _ member => Nat.isDigit_of_mem_toDigits (by decide) (by decide) member

theorem digit_ne_point {c : Char} (digit : c.isDigit) : c ≠ '.' := by
  rintro rfl
  cases digit

namespace Numeral

theorem ofDigits_toDigits (n : Nat) : ofDigits (Nat.toDigits 10 n) = n := Nat.ofDigitChars_ten_toDigits

theorem value?_digits {cs : List Char} (digits : ∀ c ∈ cs, c.isDigit) :
    value? cs = (Word.ofInt? (ofDigits cs)).map .int := by
  have none : cs.dropWhile (· ≠ '.') = [] :=
    List.dropWhile_eq_nil_iff.mpr fun c member => decide_eq_true (digit_ne_point (digits c member))
  simp only [value?, none]

/-- The numerals of the language stand for integers without a sign and for doubles. -/
theorem value?_cases {cs : List Char} {value : Value} (read : value? cs = some value) :
    (∃ n : Word, value = .int n ∧ 0 ≤ n.toInt) ∨
      ∃ digits places, value = .float (Float.ofScientific digits true places) := by
  unfold value? at read
  split at read
  · cases read
    exact .inr ⟨_, _, rfl⟩
  · obtain ⟨n, fits, same⟩ := Option.map_eq_some_iff.mp read
    have exact := Word.ofInt?_eq_some_iff.mp fits
    exact .inl ⟨n, same.symm, by omega⟩

/-- An integer without a sign is read back from its decimal digits. -/
theorem value?_word {n : Word} (unsigned : 0 ≤ n.toInt) :
    IsNumeral (toString n.toInt).toList ∧ value? (toString n.toInt).toList = some (.int n) := by
  obtain ⟨k, same⟩ := Int.eq_ofNat_of_zero_le unsigned
  have text : (toString n.toInt).toList = Nat.toDigits 10 k := by
    rw [same]
    exact Nat.toList_repr
  have digits : ∀ c ∈ Nat.toDigits 10 k, c.isDigit := fun _ member =>
    Nat.isDigit_of_mem_toDigits (by decide) (by decide) member
  have fits : Word.ofInt? (k : Int) = some n := Word.ofInt?_eq_some_iff.mpr same
  rw [text]
  refine ⟨isNumeral_toDigits k, ?_⟩
  rw [value?_digits digits, ofDigits_toDigits, fits, Option.map_some]

end Numeral

theorem zeros_isDigit (n : Nat) : ∀ c ∈ (zeros n).toList, c.isDigit := by
  intro c member
  rw [zeros, String.toList_ofList] at member
  rw [List.eq_of_mem_replicate member]
  decide

theorem pointed_text (digits places : List Char) :
    (String.ofList digits ++ "." ++ String.ofList places).toList = digits ++ '.' :: places := by
  simp

theorem Decimal.isNumeral_positional (d : Decimal) : IsNumeral d.positional.toList := by
  have some : Nat.toDigits 10 d.digits ≠ [] := Nat.toDigits_ne_nil
  have digits : ∀ c ∈ Nat.toDigits 10 d.digits, c.isDigit := fun _ member =>
    Nat.isDigit_of_mem_toDigits (by decide) (by decide) member
  unfold Decimal.positional
  dsimp only
  split
  · rw [String.toList_append, String.toList_ofList]
    refine .whole (List.append_ne_nil_of_left_ne_nil some _) ?_
    exact List.forall_mem_append.mpr ⟨digits, zeros_isDigit _⟩
  · rename_i negative
    split
    · rename_i inside
      have places : 0 < (-d.exponent).toNat := by omega
      rw [pointed_text]
      refine .pointed ?_ (fun c member => digits c (List.mem_of_mem_take member)) ?_
        (fun c member => digits c (List.mem_of_mem_drop member))
      · rw [Ne, List.take_eq_nil_iff]
        rintro (none | none)
        · omega
        · exact some none
      · rw [Ne, List.drop_eq_nil_iff]
        omega
    · have text (n : Nat) : ("0." ++ zeros n ++ String.ofList (Nat.toDigits 10 d.digits)).toList =
          ['0'] ++ '.' :: ((zeros n).toList ++ Nat.toDigits 10 d.digits) := by simp
      rw [text]
      refine .pointed nofun (List.forall_mem_singleton.mpr (by decide))
        (List.append_ne_nil_of_right_ne_nil _ some) ?_
      exact List.forall_mem_append.mpr ⟨zeros_isDigit _, digits⟩

theorem isNumeral_withPoint {text : String} (numeral : IsNumeral text.toList) :
    IsNumeral (withPoint text).toList := by
  unfold withPoint
  split
  · exact numeral
  · rename_i none
    rw [List.contains_eq_mem, decide_eq_true_eq] at none
    rw [String.toList_append]
    generalize text.toList = cs at numeral none ⊢
    cases numeral with
    | whole some digits => exact .pointed some digits nofun (List.forall_mem_singleton.mpr (by decide))
    | pointed => exact absurd (List.mem_append_right _ List.mem_cons_self) none

/-- The text of a finite double without a sign is a numeral. -/
theorem isNumeral_floatNumeral {x : Float} {mantissa : Nat} {exponent : Int}
    (unsigned : Binary.ofFloat x = .finite false mantissa exponent) : IsNumeral (floatNumeral x).toList := by
  simp only [floatNumeral, unsigned]
  apply isNumeral_withPoint
  unfold floatText
  rw [unsigned]
  cases mantissa with
  | zero =>
    show IsNumeral ("" ++ "0").toList
    rw [String.empty_append]
    exact .whole nofun (List.forall_mem_singleton.mpr (by decide))
  | succ m =>
    show IsNumeral ("" ++ (shortestDecimal (m + 1) exponent).positional).toList
    rw [String.empty_append]
    exact Decimal.isNumeral_positional _

/-- The double is a number of its own, neither infinite nor no number. -/
def Binary.IsFinite : Binary → Prop
  | .finite _ _ _ => True
  | _ => False

/-- Reading the numeral that is written for a double gives that double. -/
def ReadsBack (x : Float) : Prop := Numeral.value? (floatNumeral x).toList = some (.float x)

end LazyExpr
