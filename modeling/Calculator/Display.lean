import Calculator.Decimal.Text

/-!
# Numbers as the calculator shows them

Whole numbers and short decimals are shown in full, all others with ten significant digits.
-/

namespace Calculator.Display

def significantDigits : Nat := 10

/-- The text of a number, without the sign of a zero. -/
def number (value : Float) : String :=
  let value := value + 0
  let plain := Binary64.plainText value
  if Binary64.isIntegral value || plain.length ≤ significantDigits then plain
  else Binary64.plainText (Binary64.roundToDigits significantDigits value)

end Calculator.Display
