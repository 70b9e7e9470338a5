import LazyExpr.Value.Basic

namespace LazyExpr

namespace Numeral

/-- Splits off the numeral a text starts with: digits, and behind them a point with digits, if the
point is followed by one. -/
def split (cs : List Char) : List Char × List Char :=
  let whole := cs.takeWhile Char.isDigit
  match cs.dropWhile Char.isDigit with
  | '.' :: d :: rest =>
    if d.isDigit then
      (whole ++ '.' :: (d :: rest).takeWhile Char.isDigit, (d :: rest).dropWhile Char.isDigit)
    else (whole, '.' :: d :: rest)
  | rest => (whole, rest)

/-- The number that decimal digits stand for. -/
def ofDigits (cs : List Char) : Nat := cs.foldl (fun n c => 10 * n + (c.toNat - '0'.toNat)) 0

/-- A numeral with a point is the nearest double, one without is an integer that has to fit a word. -/
def value? (cs : List Char) : Option Value :=
  match cs.dropWhile (· ≠ '.') with
  | '.' :: places =>
    let whole := cs.takeWhile (· ≠ '.')
    some (.float (Float.ofScientific (ofDigits (whole ++ places)) true places.length))
  | _ => (Word.ofInt? (ofDigits cs)).map .int

end Numeral

end LazyExpr
