import Calculator.Event
import Calculator.Expression

/-!
# Finding a root

Newton's method with a forward difference for the slope. From a point where the curve is
flat the search moves on by one. The report of a search tells where the function was
evaluated and what happened, beside the outcome.
-/

namespace Calculator.Root

/-- Where the search starts. -/
def initialGuess : Float := 1

def maxIterations : Nat := 100

/-- A step shorter than this ends the search. -/
def tolerance : Float := 1e-7

/-- The distance over which the slope is measured. -/
def difference : Float := 1e-5

/-- A slope below this counts as flat. -/
def flat : Float := 1e-10

/-- The number rounded to nine decimal places, without the sign of a zero. -/
def roundToPlaces (x : Float) : Float := Binary64.round (x * 1e9) / 1e9 + 0

/-- The account of a search. -/
structure Report where
  /-- where the function was evaluated, in order -/
  probes : List Float
  events : List Event
  outcome : Except SolveError Float

/-- The account of a search that began with the given probes and event. -/
def Report.after (probes : List Float) (event : Event) (later : Report) : Report :=
  { later with probes := probes ++ later.probes, events := event :: later.events }

/-- Searches for a root of `f` from `x`, with the given number of iterations done before and
left. -/
def searchFrom (f : Float → Except EvaluationError Float) (done : Nat) :
    (left : Nat) → (x : Float) → Report
  | 0, x => ⟨[], [.gaveUp x done], .error .noSolutionFound⟩
  | left + 1, x =>
    match f x with
    | .error error => ⟨[x], [], .error (.evaluation error)⟩
    | .ok value =>
      let probes := [x, x + difference]
      match f (x + difference) with
      | .error error => ⟨probes, [], .error (.evaluation error)⟩
      | .ok ahead =>
        let slope := (ahead - value) / difference
        if slope.abs < flat then
          (searchFrom f (done + 1) left (x + 1)).after probes (.stationary x done)
        else
          let next := x - value / slope
          let event := .iterated done x value slope next
          if (next - x).abs < tolerance then
            ⟨probes, [event, .converged next (done + 1)], .ok (roundToPlaces next)⟩
          else (searchFrom f (done + 1) left next).after probes event

/-- Searches for a root of a function. -/
def search (f : Float → Except EvaluationError Float) : Report :=
  searchFrom f 0 maxIterations initialGuess

end Root

/-- Searches for a value of the unknown that makes the expression zero. -/
def Expression.findRoot (ctx : Context) (expression : Expression) : Root.Report :=
  Root.search (expression.evaluateAt ctx)

end Calculator
