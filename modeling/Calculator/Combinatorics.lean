import Calculator.Error
import Calculator.Builtin

/-!
# Factorials, selections and subsets

Products of integers in floating point. The counts of selections are built factor by factor
and stop at the first overflow, so a number of factors that no loop could reach does no harm:
every factor after the first is at least two.
-/

namespace Calculator.Combinatorics

/-- The largest `n` whose factorial is a finite double. -/
def largestFactorial : Float := 170

def isNonNegativeInteger (n : Float) : Bool := 0 ≤ n && Binary64.isIntegral n

/-- The factorial of a non-negative integer. -/
def factorial (n : Float) : Except EvaluationError Float :=
  if !isNonNegativeInteger n then .error (.invalidFactorial n)
  else if largestFactorial < n then .ok Binary64.infinity
  else .ok ((List.range' 2 (Binary64.toNat n - 1)).foldl (fun product k => product * .ofNat k) 1)

/-- A product under way: how many factors it has, and its value. -/
structure Progress where
  factors : Nat
  value : Float
  deriving DecidableEq

/-- Takes in up to `count` more factors, none after an overflow. The value with one factor
more comes from `grow`, given the number of factors so far and the value. -/
def multiply (grow : Nat → Float → Float) : (count : Nat) → Progress → Progress
  | 0, p => p
  | count + 1, p =>
    if p.value.isFinite then multiply grow count ⟨p.factors + 1, grow p.factors p.value⟩ else p

/-- The empty product. -/
def one : Progress := ⟨0, 1⟩

/-- Can `r` things be chosen out of `n`? -/
def isSelection (n r : Float) : Bool :=
  isNonNegativeInteger n && isNonNegativeInteger r && r ≤ n

/-- The product `(n - r + 1) · … · n`, from the smallest factor up. -/
def permutationProduct (n r : Float) : Progress :=
  let first := n - r + 1
  multiply (fun i product => product * (first + .ofNat i)) (Binary64.toNat r) one

/-- The product of `(n - r + i) / i` for `i` from one to `r`. Each partial product is a binomial
coefficient itself, so that the division comes out even. -/
def combinationProduct (n r : Float) : Progress :=
  multiply (fun i product => product * (n - r + .ofNat (i + 1)) / .ofNat (i + 1))
    (Binary64.toNat r) one

/-- The number of ordered selections of `r` things out of `n`. -/
def permutations (n r : Float) : Except EvaluationError Float :=
  if isSelection n r then .ok (permutationProduct n r).value
  else .error (.mathError Builtin.nPr.name)

/-- Choosing `r` things is leaving out `n - r`: the smaller of both. -/
def shorterSide (n r : Float) : Float := if r ≤ n - r then r else n - r

/-- The number of subsets with `r` things out of `n`. -/
def combinations (n r : Float) : Except EvaluationError Float :=
  if isSelection n r then .ok (Binary64.round (combinationProduct n (shorterSide n r)).value)
  else .error (.mathError Builtin.nCr.name)

end Calculator.Combinatorics
