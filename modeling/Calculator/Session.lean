import Calculator.Builtin.Meaning
import Calculator.Curve
import Calculator.Solution

/-!
# Sessions

A session keeps the settings, the expression read last, and the last answer.
-/

namespace Calculator

structure Session where
  mode : Mode := {}
  current : Option Expression := none
  answer : Option Float := none

namespace Session

/-- What a command takes for the unknown. -/
inductive Argument where
  | absent
  | number (x : Float)
  | answer
  deriving DecidableEq

inductive Command where
  | setAngle (unit : AngleUnit)
  | setInverse (on : Bool)
  | toggleInverse
  | reset
  | parse (text : String)
  | evaluate (text : String) (x : Argument)
  | evaluateAt (x : Argument)
  | findRoot
  | sample (range : Curve.Range)
  | solve (text : String)

inductive Reply where
  | changed
  | noExpression
  | parsed (result : Except ParseError Expression)
  | calculated (result : Except CalculationError Float)
  | evaluated (result : Except EvaluationError Float)
  | searched (report : Root.Report)
  | sampled (survey : Curve.Survey)
  | solved (events : List Event) (outcome : Except SolveError Solution)

/-- The number that becomes the last answer. -/
def Reply.answer? : Reply → Option Float
  | calculated (.ok v) | evaluated (.ok v) => some v
  | searched report => report.outcome.toOption
  | solved _ (.ok solution) => some solution.toFloat
  | _ => none

def context (session : Session) : Context := session.mode.context

/-- The values of variables where an argument is given. -/
def environment (session : Session) : Argument → Environment
  | .absent => .empty
  | .number x => .constant x
  | .answer => fun _ => session.answer

/-- The session with other settings. -/
def withMode (session : Session) (mode : Mode) : Session × Reply :=
  ({ session with mode := mode }, .changed)

/-- Asks something of the current expression. -/
def ask (session : Session) (question : Expression → Reply) : Session × Reply :=
  (session, (session.current.map question).getD .noExpression)

/-- Carries out a command, without regard to the last answer. -/
def perform (session : Session) : Command → Session × Reply
  | .setAngle unit => session.withMode { session.mode with angle := unit }
  | .setInverse on => session.withMode { session.mode with inverse := on }
  | .toggleInverse => session.withMode { session.mode with inverse := !session.mode.inverse }
  | .reset => session.withMode {}
  | .parse text =>
    let result := Expression.ofText text
    ({ session with current := result.toOption.or session.current }, .parsed result)
  | .evaluate text x =>
    (session, .calculated (Calculator.evaluate (session.environment x) session.context text))
  | .evaluateAt x =>
    session.ask fun expression =>
      .evaluated (expression.evaluate (session.environment x) session.context)
  | .findRoot => session.ask fun expression => .searched (expression.findRoot session.context)
  | .sample range =>
    session.ask fun expression => .sampled (expression.sample session.context range)
  | .solve text =>
    let (events, outcome) := solveWithEvents session.context text
    (session, .solved events outcome)

/-- Carries out a command; a number that it yields is the last answer from then on. -/
def step (session : Session) (command : Command) : Session × Reply :=
  let (session, reply) := session.perform command
  ({ session with answer := reply.answer?.or session.answer }, reply)

end Session

end Calculator
