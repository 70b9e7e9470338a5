import LazyExpr.Number.Shortest

namespace LazyExpr

def zeros (n : Nat) : String := String.ofList (List.replicate n '0')

/-- Digits with the point put where it belongs, filled up with zeros on either side. -/
def Decimal.positional (d : Decimal) : String :=
  let digits := Nat.toDigits 10 d.digits
  if 0 ≤ d.exponent then
    String.ofList digits ++ zeros d.exponent.toNat
  else
    let places := (-d.exponent).toNat
    if places < digits.length then
      String.ofList (digits.take (digits.length - places)) ++ "." ++
        String.ofList (digits.drop (digits.length - places))
    else
      "0." ++ zeros (places - digits.length) ++ String.ofList digits

/-- One digit before the point, the others behind it, and the power of ten. -/
def Decimal.scientific (d : Decimal) : String :=
  match Nat.toDigits 10 d.digits with
  | [] => ""
  | first :: rest =>
    let mantissa := if rest.isEmpty then String.ofList [first] else String.ofList (first :: '.' :: rest)
    mantissa ++ "e" ++ toString (d.exponent + rest.length)

def signText (negative : Bool) : String := if negative then "-" else ""

/-- The text of a double: the shortest digits that read back, never with an exponent. -/
def floatText (x : Float) : String :=
  match Binary.ofFloat x with
  | .nan => "NaN"
  | .infinite negative => signText negative ++ "inf"
  | .finite negative 0 _ => signText negative ++ "0"
  | .finite negative m e => signText negative ++ (shortestDecimal m e).positional

/-- In output a whole number below `2 ^ 63` is written as that integer, so zero has no sign there. -/
def floatOutput (x : Float) : String :=
  match Binary.ofFloat x with
  | .finite negative m e =>
    match Binary.whole? m e with
    | some n => if n < 1 <<< 63 then toString (if negative then -(n : Int) else n) else floatText x
    | none => floatText x
  | _ => floatText x

/-- Adds the point that tells a whole double from an integer. -/
def withPoint (text : String) : String :=
  if text.toList.contains '.' then text else text ++ ".0"

/-- The text of a double in a numeral of the language: a finite one always has a point. -/
def floatNumeral (x : Float) : String :=
  match Binary.ofFloat x with
  | .finite _ _ _ => withPoint (floatText x)
  | _ => floatText x

/-- The text of a double in a diagnostic: positional with a point from `10 ^ -4` up to `10 ^ 16`, with
an exponent outside. -/
def floatDiagnostic (x : Float) : String :=
  match Binary.ofFloat x with
  | .finite _ 0 _ => withPoint (floatText x)
  | .finite negative m e =>
    let size := x.abs
    if size < 1e-4 || 1e16 ≤ size then signText negative ++ (shortestDecimal m e).scientific
    else withPoint (floatText x)
  | _ => floatText x

end LazyExpr
