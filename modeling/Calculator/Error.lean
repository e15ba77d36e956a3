import Calculator.Decimal.Text

/-!
# Causes of failure

Each kind of failure has its own type, and one function that words it.
-/

namespace Calculator

/-- Results are compared by their values or by their causes of failure. -/
instance decidableEqResult {ε α : Type} [DecidableEq ε] [DecidableEq α] :
    DecidableEq (Except ε α)
  | .ok a, .ok b => decidable_of_iff (a = b) (by simp)
  | .error a, .error b => decidable_of_iff (a = b) (by simp)
  | .ok _, .error _ => isFalse nofun
  | .error _, .ok _ => isFalse nofun

/-- Why a text is not an expression. Positions count bytes of the text in UTF-8. -/
inductive ParseError where
  | invalidCharacter (character : Char) (index : Nat)
  | invalidNumber (text : String) (start stop : Nat)
  | unbalancedParentheses
  | emptyExpression
  deriving DecidableEq, Repr

/-- Why an expression has no value. -/
inductive EvaluationError where
  | undefinedVariable (name : String)
  /-- an operation was applied outside its domain -/
  | mathError (operation : String)
  /-- only non-negative integers have a factorial -/
  | invalidFactorial (value : Float)
  /-- the tokens do not reduce to exactly one value -/
  | malformedExpression
  deriving DecidableEq

/-- Why a text has no value. -/
inductive CalculationError where
  | parse (error : ParseError)
  | evaluation (error : EvaluationError)
  deriving DecidableEq

/-- Why a text has no solution. -/
inductive SolveError where
  | parse (error : ParseError)
  | evaluation (error : EvaluationError)
  | noSolutionFound
  deriving DecidableEq

def ParseError.message : ParseError → String
  | invalidCharacter character index =>
    "Invalid character '" ++ character.toString ++ "' at index " ++ toString index
  | invalidNumber text start stop =>
    "\"" ++ text ++ "\" at " ++ toString start ++ ".." ++ toString stop ++ " is not a valid number"
  | unbalancedParentheses => "Unbalanced parentheses"
  | emptyExpression => "Nothing to calculate"

def EvaluationError.message : EvaluationError → String
  | undefinedVariable name => "Variable '" ++ name ++ "' is not defined"
  | mathError operation => "Math error in '" ++ operation ++ "'"
  | invalidFactorial value => "Invalid factorial: " ++ Binary64.plainText value ++ "!"
  | malformedExpression => "Malformed expression"

namespace CalculationError

def message : CalculationError → String
  | parse error => error.message
  | evaluation error => error.message

/-- The same failure, met while looking for a solution. -/
def toSolveError : CalculationError → SolveError
  | parse error => .parse error
  | evaluation error => .evaluation error

end CalculationError

namespace SolveError

def message : SolveError → String
  | parse error => error.message
  | evaluation error => "Solver error: " ++ error.message
  | noSolutionFound => "No solution found"

/-- The wording of the failure beneath, where there is one. -/
def source : SolveError → Option String
  | parse error => some error.message
  | evaluation error => some error.message
  | noSolutionFound => none

end SolveError

end Calculator
