namespace LazyExpr

/-- Integers of the language are 64-bit words. -/
abbrev Word := Int64

/-- The word for an integer, if it has one. -/
def Word.ofInt? (n : Int) : Option Word :=
  if Int64.minValue.toInt ≤ n ∧ n ≤ Int64.maxValue.toInt then some (Int64.ofInt n) else none

/-- Arithmetic on words is arithmetic on integers whose result must fit again. -/
def Word.add? (a b : Word) : Option Word := Word.ofInt? (a.toInt + b.toInt)

def Word.sub? (a b : Word) : Option Word := Word.ofInt? (a.toInt - b.toInt)

def Word.mul? (a b : Word) : Option Word := Word.ofInt? (a.toInt * b.toInt)

def Word.neg? (a : Word) : Option Word := Word.ofInt? (-a.toInt)

/-- The remainder with the sign of the dividend, for a divisor other than zero. It is refused when the
quotient does not fit, which happens only for the least word divided by `-1`. -/
def Word.rem? (a b : Word) : Option Word :=
  if (Word.ofInt? (a.toInt.tdiv b.toInt)).isSome then Word.ofInt? (a.toInt.tmod b.toInt) else none

/-- A shift amount is one of the 64 bit positions. Bits shifted out on the left are lost. -/
def Word.shiftLeft? (a b : Word) : Option Word :=
  if 0 ≤ b.toInt ∧ b.toInt < 64 then some (a <<< b) else none

/-- The shift to the right keeps the sign. -/
def Word.shiftRight? (a b : Word) : Option Word :=
  if 0 ≤ b.toInt ∧ b.toInt < 64 then some (a >>> b) else none

/-- The nearest double, an exact half going to the even neighbour. -/
def Word.toFloat (a : Word) : Float := Float.ofInt a.toInt

theorem Word.ofInt?_eq_some_iff {n : Int} {a : Word} : Word.ofInt? n = some a ↔ a.toInt = n := by
  unfold Word.ofInt?
  constructor
  · intro h
    split at h
    · rename_i fits
      cases h
      exact Int64.toInt_ofInt_of_le fits.1 (Int.lt_of_le_of_lt fits.2 (by decide))
    · cases h
  · rintro rfl
    rw [if_pos ⟨Int64.minValue_le_toInt a, Int64.toInt_le a⟩, Int64.ofInt_toInt]

theorem Word.bounds (a : Word) : -9223372036854775808 ≤ a.toInt ∧ a.toInt ≤ 9223372036854775807 :=
  ⟨Int64.minValue_le_toInt a, Int64.toInt_le a⟩

theorem Word.natAbs_le (a : Word) : a.toInt.natAbs ≤ 9223372036854775808 := by
  have bounds := a.bounds
  omega

/-- Every word but the least one has a negation. -/
theorem Word.exists_neg {n : Word} (more : n ≠ Int64.minValue) : ∃ k : Word, k.toInt = -n.toInt := by
  have least : Int64.minValue.toInt = -9223372036854775808 := rfl
  have most : Int64.maxValue.toInt = 9223372036854775807 := rfl
  have apart : n.toInt ≠ Int64.minValue.toInt := fun same => more (Int64.toInt_inj.mp same)
  have bounds := n.bounds
  refine ⟨Int64.ofInt (-n.toInt), Int64.toInt_ofInt_of_le ?_ ?_⟩ <;> omega

end LazyExpr
