import Calculator.Decimal.Shortest

/-!
# Doubles as text

The plain text of a double is its shortest decimal in positional notation, whatever its
size: no exponent is ever written, and a whole number has no point. The marked text
always shows a point or an exponent.
-/

namespace Calculator

namespace Decimal

/-- Puts the point `places` digits from the right, with zeros before it where digits lack. -/
def insertPoint (digits : List Char) (places : Nat) : List Char :=
  if digits.length ≤ places then
    '0' :: '.' :: (List.replicate (places - digits.length) '0' ++ digits)
  else
    digits.take (digits.length - places) ++ '.' :: digits.drop (digits.length - places)

/-- Positional notation. -/
def positional (d : Decimal) : List Char :=
  if 0 ≤ d.exponent then d.digits ++ List.replicate d.exponent.toNat '0'
  else insertPoint d.digits (-d.exponent).toNat

/-- The power of ten of the first digit. -/
def magnitude (d : Decimal) : Int := d.exponent + d.digits.length - 1

/-- Scientific notation: one digit before the point, and no point where no digit follows. -/
def scientific (d : Decimal) : List Char :=
  let mantissa :=
    match d.digits with
    | first :: second :: rest => first :: '.' :: second :: rest
    | short => short
  mantissa ++ 'e' :: (toString d.magnitude).toList

end Decimal

namespace Binary64

open Float.Model.UnpackedFloat (Sign)

/-- The sign in front of a number. -/
def signText : Sign → String
  | .negative => "-"
  | .positive => ""

/-- Writes the magnitude of a nonzero finite double by `write`, the sign and the special
values by name. -/
def textBy (zero : String) (write : Decimal → List Char) (x : Float) : String :=
  match unpack x with
  | .notANumber => "NaN"
  | .infinity sign => signText sign ++ "inf"
  | .zero sign => signText sign ++ zero
  | .finite sign _ _ _ => signText sign ++ String.ofList (write (Decimal.shortest x))

/-- The shortest text that reads back as the same double, in positional notation. -/
def plainText : Float → String := textBy "0" Decimal.positional

/-- From `10 ^ -4` to below `10 ^ 16` positional notation with a point, otherwise scientific. -/
def markedText : Float → String :=
  textBy "0.0" fun d =>
    if d.magnitude < -4 ∨ 16 ≤ d.magnitude then d.scientific
    else if 0 ≤ d.exponent then d.positional ++ ['.', '0']
    else d.positional

/-- The double rounded to `n` significant decimal digits. -/
def roundToDigits (n : Nat) (x : Float) : Float :=
  match unpack x with
  | .finite .negative _ _ _ => -((Decimal.ofMagnitude x).roundTo n).toFloat
  | .finite .positive _ _ _ => ((Decimal.ofMagnitude x).roundTo n).toFloat
  | _ => x

end Binary64

end Calculator
