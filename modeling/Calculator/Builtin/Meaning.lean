import Calculator.Combinatorics
import Calculator.Evaluation

/-!
# What the built-in functions compute

The functions rest on a few elementary ones, which a record supplies, and on the settings
of the calculator: the unit of angles, and whether trigonometric names stand for their
inverses.
-/

namespace Calculator

/-- The functions of analysis that the built-in ones rest on. -/
structure Elementary where
  sin : Float → Float
  cos : Float → Float
  tan : Float → Float
  asin : Float → Float
  acos : Float → Float
  atan : Float → Float
  exp : Float → Float
  ln : Float → Float
  log10 : Float → Float

/-- The functions of the machine. -/
def Elementary.machine : Elementary where
  sin := Float.sin
  cos := Float.cos
  tan := Float.tan
  asin := Float.asin
  acos := Float.acos
  atan := Float.atan
  exp := Float.exp
  ln := Float.log
  log10 := Float.log10

/-- The unit in which angles are given and reported. -/
inductive AngleUnit where
  | degrees | radians
  deriving DecidableEq, Repr

namespace AngleUnit

def toRadians : AngleUnit → Float → Float
  | degrees, angle => angle * 0.017453292519943295
  | radians, angle => angle

def ofRadians : AngleUnit → Float → Float
  | degrees, angle => angle * 57.29577951308232
  | radians, angle => angle

end AngleUnit

/-- The settings of the calculator. -/
structure Mode where
  angle : AngleUnit := .degrees
  /-- do `sin`, `cos`, `tan`, `sec`, `cosec` and `cot` stand for their inverses? -/
  inverse : Bool := false
  deriving DecidableEq, Repr

namespace Builtin

/-- What is nearer to zero than this is no divisor. -/
def nearZero : Float := 1e-10

/-- The quotient `1 / x`, unless `x` is so near to zero that the quotient means nothing. -/
def reciprocal (f : Builtin) (x : Float) : Except EvaluationError Float :=
  if x.abs < nearZero then .error (.mathError f.name) else .ok (1 / x)

/-- The standard deviation of two values, with the squares divided by `divisor`. -/
def deviation (a b divisor : Float) : Float :=
  let mean := (a + b) / 2
  (((a - mean) * (a - mean) + (b - mean) * (b - mean)) / divisor).sqrt

/-- The value of a call. -/
def apply (E : Elementary) (mode : Mode) (f : Builtin) (arguments : List Float) :
    Except EvaluationError Float :=
  let radians := mode.angle.toRadians
  let arc := mode.angle.ofRadians
  let domain : Except EvaluationError Float := .error (.mathError f.name)
  match f, arguments with
  | sin, [x] => .ok (if mode.inverse then arc (E.asin x) else E.sin (radians x))
  | cos, [x] => .ok (if mode.inverse then arc (E.acos x) else E.cos (radians x))
  | tan, [x] =>
    if mode.inverse then .ok (arc (E.atan x))
    else
      let t := E.tan (radians x)
      if t.isFinite then .ok t else domain
  | sec, [x] =>
    if mode.inverse then return arc (E.acos (← reciprocal f x))
    else reciprocal f (E.cos (radians x))
  | cosec, [x] =>
    if mode.inverse then return arc (E.asin (← reciprocal f x))
    else reciprocal f (E.sin (radians x))
  | cot, [x] =>
    if mode.inverse then return arc (E.atan (← reciprocal f x))
    else reciprocal f (E.tan (radians x))
  | asin, [x] => if x < -1 || 1 < x then domain else .ok (arc (E.asin x))
  | acos, [x] => if x < -1 || 1 < x then domain else .ok (arc (E.acos x))
  | atan, [x] => .ok (arc (E.atan x))
  | log, [x] => if x ≤ 0 then domain else .ok (E.log10 x)
  | ln, [x] => if x ≤ 0 then domain else .ok (E.ln x)
  | exp, [x] => .ok (E.exp x)
  | abs, [x] => .ok x.abs
  | round, [x] => .ok (Binary64.round x)
  | floor, [x] => .ok (Binary64.floor x)
  | ceil, [x] => .ok (Binary64.ceil x)
  | nthRoot, [n, x] => if n == 0 then domain else .ok (x ^ (1 / n))
  | mean, [a, b] => .ok ((a + b) / 2)
  | stdev, [a, b] => .ok (deviation a b 1)
  | stdevp, [a, b] => .ok (deviation a b 2)
  | nPr, [n, r] => Combinatorics.permutations n r
  | nCr, [n, r] => Combinatorics.combinations n r
  | _, _ => .error .malformedExpression

end Builtin

/-- The built-in functions under the given settings. -/
def Mode.context (mode : Mode) (E : Elementary := .machine) : Context where
  apply := Builtin.apply E mode
  factorial := Combinatorics.factorial

end Calculator
