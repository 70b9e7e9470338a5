namespace LazyExpr

/-- What a double stands for: no number, an infinity, or the magnitude `mantissa * 2 ^ exponent`
with a sign, zero included. -/
inductive Binary
  | nan
  | infinite (negative : Bool)
  | finite (negative : Bool) (mantissa : Nat) (exponent : Int)
  deriving DecidableEq, Repr

/-- The leading bit of a mantissa, the 53rd one. -/
def Binary.leadingBit : Nat := 1 <<< 52

/-- Reads the sign, the eleven exponent bits and the 52 bits of the fraction. An exponent of zero
marks the subnormal numbers, which have no leading bit of their own. -/
def Binary.ofFloat (x : Float) : Binary :=
  let bits := x.toBits.toNat
  let negative := bits >>> 63 == 1
  let exponent : Nat := bits >>> 52 % 2048
  let fraction : Nat := bits % Binary.leadingBit
  if exponent = 2047 then
    if fraction = 0 then .infinite negative else .nan
  else if exponent = 0 then
    .finite negative fraction (-1074)
  else
    .finite negative (Binary.leadingBit + fraction) (exponent - 1075)

/-- The fraction `num / den` that equals `mantissa * 2 ^ exponent`. -/
def Binary.fraction (mantissa : Nat) (exponent : Int) : Nat × Nat :=
  (mantissa <<< exponent.toNat, 1 <<< (-exponent).toNat)

/-- The double of a signed magnitude `mantissa * 2 ^ exponent`, exact when there is one. -/
def Binary.toFloat (negative : Bool) (mantissa : Nat) (exponent : Int) : Float :=
  let magnitude :=
    if 0 ≤ exponent then Float.ofNat (mantissa <<< exponent.toNat)
    else Float.ofScientific (mantissa * Nat.pow 5 (-exponent).toNat) true (-exponent).toNat
  if negative then -magnitude else magnitude

/-- The magnitude as a natural number, if it has no fractional part. -/
def Binary.whole? (mantissa : Nat) (exponent : Int) : Option Nat :=
  let (num, den) := Binary.fraction mantissa exponent
  if num % den = 0 then some (num / den) else none

/-- The remainder of a division whose quotient is cut toward zero. It is exact, its sign is that of
the dividend, and an infinite divisor leaves the dividend as it is. -/
def Binary.rem (x y : Float) : Float :=
  match Binary.ofFloat x, Binary.ofFloat y with
  | .finite negative m e, .finite _ n d =>
    let low := min e d
    let dividend := m <<< (e - low).toNat
    let divisor := n <<< (d - low).toNat
    if divisor = 0 then 0.0 / 0.0 else Binary.toFloat negative (dividend % divisor) low
  | .finite _ _ _, .infinite _ => x
  | _, _ => 0.0 / 0.0

end LazyExpr
