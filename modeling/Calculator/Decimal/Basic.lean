import Calculator.Binary64

/-!
# Decimal numbers

`⟨c, e⟩` is the number `c · 10 ^ e`. Every finite double is such a number exactly, and every
such number has a nearest double.
-/

namespace Calculator

structure Decimal where
  coefficient : Nat
  exponent : Int
  deriving DecidableEq, Repr

namespace Decimal

def tenTo (k : Nat) : Nat := Nat.pow 10 k

/-- The double nearest to the number; a tie goes to the even significand. -/
def toFloat (d : Decimal) : Float :=
  Binary64.ofRatio .positive (d.coefficient * tenTo d.exponent.toNat) (tenTo (-d.exponent).toNat)

/-- The number `m · 2 ^ e` as a decimal, since `2 ^ -k = 5 ^ k · 10 ^ -k`. -/
def ofScaled (m : Nat) (e : Int) : Decimal :=
  ⟨(m <<< e.toNat) * Nat.pow 5 (-e).toNat, min e 0⟩

/-- The magnitude of a finite double, exactly. -/
def ofMagnitude (x : Float) : Decimal :=
  match Binary64.unpack x with
  | .finite _ m e _ => ofScaled m e
  | _ => ⟨0, 0⟩

/-- The digits of the coefficient, the most significant first. -/
def digits (d : Decimal) : List Char := Nat.toDigits 10 d.coefficient

/-- The number without its last `k` digits. -/
def truncate (d : Decimal) (k : Nat) : Decimal := ⟨d.coefficient / tenTo k, d.exponent + k⟩

/-- What `truncate` cuts off, in units of the last digit of `d`. -/
def cutOff (d : Decimal) (k : Nat) : Nat := d.coefficient % tenTo k

/-- The next number on the same grid. -/
def succ (d : Decimal) : Decimal := ⟨d.coefficient + 1, d.exponent⟩

/-- The same number without zeros at the end of the coefficient. -/
def normalize (d : Decimal) : Decimal :=
  let zeros := (d.digits.reverse.takeWhile (· == '0')).length
  ⟨d.coefficient / tenTo zeros, d.exponent + zeros⟩

/-- The number rounded to its first `n` digits; a half goes to the even neighbour. -/
def roundTo (d : Decimal) (n : Nat) : Decimal :=
  let k := d.digits.length - n
  let low := d.truncate k
  match compare (2 * d.cutOff k) (tenTo k) with
  | .lt => low
  | .gt => low.succ
  | .eq => if low.coefficient % 2 = 0 then low else low.succ

end Decimal

end Calculator
