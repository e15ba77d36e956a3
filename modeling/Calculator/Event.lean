import Calculator.Token
import Calculator.Error

/-!
# What happens on the way

The steps of a calculation that are worth a line in a log, each with its level and its wording.
-/

namespace Calculator

/-- How much detail a log entry is. -/
inductive Level where
  | debug | trace
  deriving DecidableEq, Repr

inductive Event where
  /-- an expression has been put into postfix order -/
  | arranged (tokens : List Token)
  /-- the search for a root met a flat place -/
  | stationary (x : Float) (iteration : Nat)
  /-- the search for a root made a step -/
  | iterated (iteration : Nat) (x value slope next : Float)
  | converged (x : Float) (iterations : Nat)
  | gaveUp (x : Float) (iterations : Nat)
  /-- a curve needs too many points -/
  | tooManyPoints (start stop step : Float)
  /-- a curve has no point at `x` -/
  | broken (x : Float) (result : Except EvaluationError Float)

namespace Event

/-- The cause of a failure with the names of its parts. -/
def describeError : EvaluationError → String
  | .undefinedVariable name => "UndefinedVariable \x7b name: \"" ++ name ++ "\" \x7d"
  | .mathError operation => "MathError \x7b operation: \"" ++ operation ++ "\" \x7d"
  | .invalidFactorial value =>
    "InvalidFactorial \x7b value: " ++ Binary64.markedText value ++ " \x7d"
  | .malformedExpression => "MalformedExpression"

/-- A value or a failure, marked as the one or the other. -/
def describe : Except EvaluationError Float → String
  | .ok value => "Ok(" ++ Binary64.markedText value ++ ")"
  | .error error => "Err(" ++ describeError error ++ ")"

def level : Event → Level
  | arranged _ | broken _ _ => .trace
  | _ => .debug

def message : Event → String
  | arranged tokens => "Postfix: " ++ Token.listText tokens
  | stationary x iteration =>
    "Stationary point at x = " ++ Binary64.plainText x ++ " on iteration " ++ toString iteration ++
      ", moving on"
  | iterated iteration x value slope next =>
    "Iteration " ++ toString iteration ++ ": x = " ++ Binary64.plainText x ++ ", f(x) = " ++
      Binary64.plainText value ++ ", f'(x) = " ++ Binary64.plainText slope ++ ", next = " ++
      Binary64.plainText next
  | converged x iterations =>
    "Converged to " ++ Binary64.plainText x ++ " after " ++ toString iterations ++ " iterations"
  | gaveUp x iterations =>
    "Gave up after " ++ toString iterations ++ " iterations, last x = " ++ Binary64.plainText x
  | tooManyPoints start stop step =>
    "Sampling " ++ Binary64.plainText start ++ ".." ++ Binary64.plainText stop ++ " every " ++
      Binary64.plainText step ++ " needs too many points"
  | broken x result =>
    "Breaking the curve at x = " ++ Binary64.plainText x ++ ": " ++ describe result

end Event

/-- A log of the given detail shows its own level and, if it traces, the coarser one too. -/
def Level.shows : Level → Level → Bool
  | .trace, _ => true
  | .debug, other => other == .debug

def Level.text : Level → String
  | .debug => "DEBUG"
  | .trace => "TRACE"

/-- The line of a log that an event makes. -/
def Event.entry (event : Event) : String := event.level.text ++ " " ++ event.message

/-- The log of the events at a level of detail. -/
def Event.log (detail : Level) (events : List Event) : List String :=
  (events.filter fun event => detail.shows event.level).map entry

end Calculator
