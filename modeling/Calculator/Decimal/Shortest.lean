import Calculator.Decimal.Basic

/-!
# The shortest decimal of a double

Among the decimals that read back as a given double, the one with the fewest digits, and of
several with that many digits the nearest. On the grid of numbers with `n` digits only the
two neighbours of the exact value need a look: if any number of the grid reads back, the
nearer neighbour on its side does. Seventeen digits are always enough.
-/

namespace Calculator.Decimal

/-- The best decimal that reads back as `x`, whose exact value is `exact`, on the grid where
`exact` has lost its last `k` digits. Of two that are equally near the larger is taken. -/
def candidate? (x : Float) (exact : Decimal) (k : Nat) : Option Decimal :=
  let low := (exact.truncate k).normalize
  let high := (exact.truncate k).succ.normalize
  if low.toFloat = x then
    if 2 * exact.cutOff k < tenTo k then some low
    else if high.toFloat = x then some high
    else some low
  else if high.toFloat = x then some high
  else none

/-- The fewest digits that read back as the magnitude of a finite double. -/
def shortest (x : Float) : Decimal :=
  let exact := ofMagnitude x
  let size := exact.digits.length
  ((List.range' 1 17).findSome? fun n => candidate? x.abs exact (size - n)).getD exact

end Calculator.Decimal
