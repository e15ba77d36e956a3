import Calculator.Decimal.Basic

/-!
# Numerals

A numeral is written with digits and at most one point, and has at least one digit.
-/

namespace Calculator.Decimal

/-- The characters that numerals are made of. -/
def isNumeralChar (c : Char) : Bool := c.isDigit || c == '.'

/-- The number that a row of digits stands for. -/
def ofDigits (digits : List Char) : Nat :=
  digits.foldl (fun n c => 10 * n + (c.toNat - '0'.toNat)) 0

/-- The number written by a run of digits and points, if it is a numeral. -/
def ofNumeral? (run : List Char) : Option Decimal :=
  let whole := run.takeWhile (· ≠ '.')
  let fraction := (run.dropWhile (· ≠ '.')).drop 1
  let digits := whole ++ fraction
  if digits.isEmpty || !digits.all Char.isDigit then none
  else some ⟨ofDigits digits, -fraction.length⟩

end Calculator.Decimal
