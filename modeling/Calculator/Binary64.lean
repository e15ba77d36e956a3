/-!
# Exact operations on binary floating point

A finite double is `± m · 2 ^ e` with natural `m` and integer `e`. The operations here
work on that value: rounding a quotient of natural numbers to the nearest double, rounding
to an integer in three directions, and the remainder of a division. Each result is the
exact one, rounded once.
-/

namespace Calculator.Binary64

open Float.Model (UnpackedFloat)
open Float.Model.UnpackedFloat (Sign)

/-- The sign, significand and exponent of a double, or which special value it is. -/
def unpack (x : Float) : UnpackedFloat := x.toModel.unpack

/-- The double with the given content, which must be in canonical form. -/
def pack (u : UnpackedFloat) : Float := .ofModel (.pack u)

def nan : Float := pack .notANumber
def infinity : Float := pack (.infinity .positive)

/-- The double nearest to `± m · 2 ^ e`. -/
def ofScaled (sign : Sign) (m : Nat) (e : Int) : Float :=
  pack (UnpackedFloat.round .binary64 sign m e)

/-- The double nearest to `± num / den`; a tie goes to the even significand. -/
def ofRatio (sign : Sign) (num den : Nat) : Float :=
  let (m, e, accuracy) := UnpackedFloat.divCore .binary64 num 0 den 0
  pack (UnpackedFloat.roundWithAccuracy .binary64 sign m e accuracy)

/-- Is the value an integer? Infinities and NaN are not. -/
def isIntegral (x : Float) : Bool :=
  match unpack x with
  | .zero _ => true
  | .finite _ m e _ => m % (1 <<< (-e).toNat) == 0
  | .infinity _ | .notANumber => false

/-- The integer part of a positive double; zero for everything else. -/
def toNat (x : Float) : Nat :=
  match unpack x with
  | .finite .positive m e _ => (m <<< e.toNat) >>> (-e).toNat
  | _ => 0

/-- Replaces the magnitude `whole + rest / unit` by a whole number, keeping the sign even
where the result is zero. A value without a fraction is its own rounding. -/
def roundBy (choose : Sign → (whole rest unit : Nat) → Nat) (x : Float) : Float :=
  match unpack x with
  | .finite sign m e _ =>
    if 0 ≤ e then x
    else
      let unit := 1 <<< (-e).toNat
      ofScaled sign (choose sign (m / unit) (m % unit) unit) 0
  | _ => x

/-- The largest integer that is not above `x`. -/
def floor : Float → Float :=
  roundBy fun sign whole rest _ =>
    match sign with
    | .positive => whole
    | .negative => if rest = 0 then whole else whole + 1

/-- The smallest integer that is not below `x`. -/
def ceil : Float → Float :=
  roundBy fun sign whole rest _ =>
    match sign with
    | .positive => if rest = 0 then whole else whole + 1
    | .negative => whole

/-- The nearest integer; a half goes away from zero. -/
def round : Float → Float :=
  roundBy fun _ whole rest unit => if unit ≤ 2 * rest then whole + 1 else whole

/-- What is left of `x` after taking away the largest multiple of `y` that fits towards zero.
It has the sign of `x`, and needs no rounding. -/
def remainder (x y : Float) : Float :=
  match unpack x, unpack y with
  | .finite sign m e _, .finite _ n f _ =>
    let common := min e f
    ofScaled sign ((m <<< (e - common).toNat) % (n <<< (f - common).toNat)) common
  | .finite .., .infinity _ | .zero _, .infinity _ | .zero _, .finite .. => x
  | _, _ => nan

end Calculator.Binary64
