import Calculator.Root
import Calculator.Display

/-!
# Calculating and solving

A text is either calculated, which needs a value for the unknown if it is mentioned, or
solved: the root is sought if the unknown is mentioned, and the value taken if not.
-/

namespace Calculator

/-- The value of a text. -/
def evaluate (env : Environment) (ctx : Context) (text : String) :
    Except CalculationError Float := do
  let expression ← (Expression.ofText text).mapError .parse
  (expression.evaluate env ctx).mapError .evaluation

inductive Solution where
  /-- a value of the unknown that satisfies the equation -/
  | root (x : Float)
  /-- the value of a text without unknown -/
  | value (v : Float)
  deriving DecidableEq

namespace Solution

/-- The number found. -/
def toFloat : Solution → Float
  | root x => x
  | value v => v

def text : Solution → String
  | root x => Token.unknownName ++ " = " ++ Binary64.plainText x
  | value v => Display.number v

end Solution

namespace Expression

/-- The events of a solution, and its outcome. -/
def solve (ctx : Context) (expression : Expression) :
    List Event × Except SolveError Solution :=
  if expression.hasUnknown then
    let report := expression.findRoot ctx
    (report.events, report.outcome.map .root)
  else ([], ((expression.evaluate .empty ctx).mapError .evaluation).map .value)

end Expression

/-- The events of solving a text, and the outcome. -/
def solveWithEvents (ctx : Context) (text : String) :
    List Event × Except SolveError Solution :=
  let result := Expression.ofText text
  match result with
  | .error error => (Expression.events result, .error (.parse error))
  | .ok expression =>
    let (events, outcome) := expression.solve ctx
    (Expression.events result ++ events, outcome)

/-- The solution of a text. -/
def solve (ctx : Context) (text : String) : Except SolveError Solution :=
  (solveWithEvents ctx text).2

end Calculator
