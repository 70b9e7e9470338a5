import LazyExpr.Number.Binary

namespace LazyExpr

/-- A decimal `digits * 10 ^ exponent`. -/
structure Decimal where
  digits : Nat
  exponent : Int
  deriving DecidableEq, Repr

/-- Moves the trailing zeros of the digits into the exponent. -/
def Decimal.trim (d : Decimal) : Decimal :=
  go ((Nat.toDigits 10 d.digits).length) d
where
  go : Nat → Decimal → Decimal
    | 0, d => d
    | fuel + 1, d =>
      if d.digits % 10 = 0 ∧ d.digits ≠ 0 then go fuel ⟨d.digits / 10, d.exponent + 1⟩ else d

/-- The open or closed stretch of numbers that round to one double, and the double itself, all three
as numerators over the denominator `den`. -/
structure RoundingRange where
  low : Nat
  value : Nat
  high : Nat
  den : Nat
  closed : Bool

/-- Half the way to each neighbour rounds to the double between them. The neighbour below a power of
two is only half as far. The ends belong to the even mantissa. -/
def RoundingRange.of (mantissa : Nat) (exponent : Int) : RoundingRange :=
  let scale := 1 <<< exponent.toNat
  let below := if mantissa = Binary.leadingBit ∧ -1074 < exponent then 1 else 2
  { low := (4 * mantissa - below) * scale
    value := 4 * mantissa * scale
    high := (4 * mantissa + 2) * scale
    den := 4 <<< (-exponent).toNat
    closed := mantissa % 2 == 0 }

/-- The exponent `k` with `10 ^ (k - 1) ≤ num / den < 10 ^ k`. -/
def decimalMagnitude (num den : Nat) : Int :=
  let gap : Int := (Nat.toDigits 10 den).length - (Nat.toDigits 10 num).length
  if den * Nat.pow 10 (-gap).toNat ≤ num * Nat.pow 10 gap.toNat then 1 - gap else -gap

/-- The point of the grid with step `10 ^ exponent` that stands for the double, if one of the two next
to its value rounds to it. The nearer one wins, and the upper one when both are equally near. -/
def RoundingRange.onGrid? (r : RoundingRange) (exponent : Int) : Option Decimal :=
  let up := Nat.pow 10 (-exponent).toNat
  let step := r.den * Nat.pow 10 exponent.toNat
  let floor := r.value * up / step
  let inside (n : Nat) : Bool :=
    if r.closed then r.low * up ≤ n * step && n * step ≤ r.high * up
    else r.low * up < n * step && n * step < r.high * up
  let nearerAbove := (floor + 1) * step - r.value * up ≤ r.value * up - floor * step
  if inside (floor + 1) && (nearerAbove || !inside floor) then some ⟨floor + 1, exponent⟩
  else if inside floor then some ⟨floor, exponent⟩
  else none

/-- The decimal with the fewest digits that reads back as the positive double
`mantissa * 2 ^ exponent`, and the nearest of those. Seventeen digits are always enough. -/
def shortestDecimal (mantissa : Nat) (exponent : Int) : Decimal :=
  let range := RoundingRange.of mantissa exponent
  let top := decimalMagnitude range.value range.den
  let found := (List.range 17).findSome? fun (n : Nat) => range.onGrid? (top - (n + 1))
  (found.getD ⟨range.value / range.den, 0⟩).trim

end LazyExpr
