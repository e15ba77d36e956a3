import Calculator.Token.Lexer
import Calculator.Postfix
import Calculator.Evaluation
import Calculator.Event

/-!
# Expressions

An expression is kept in postfix order, so that it is read once and evaluated many times.
-/

namespace Calculator

structure Expression where
  /-- operands before what applies to them -/
  tokens : List Token
  deriving DecidableEq

namespace Expression

/-- The expression with the given tokens, in the order written. -/
def ofTokens (tokens : List Token) : Except ParseError Expression :=
  return ⟨← Postfix.ofInfix tokens⟩

/-- The expression that a text stands for. -/
def ofText (text : String) : Except ParseError Expression := do
  ofTokens (← Token.ofText text)

/-- What happens when an expression is made: it is put into postfix order, unless that fails. -/
def events : Except ParseError Expression → List Event
  | .ok expression => [.arranged expression.tokens]
  | .error _ => []

/-- Does the expression mention the unknown? -/
def hasUnknown (expression : Expression) : Bool := expression.tokens.any Token.isUnknown

/-- Writes the token with the given index, after a space unless it is the first. -/
def writeToken (written : String) : Token × Nat → String
  | (token, i) => (if 0 < i then written ++ " " else written) ++ token.text

/-- The tokens in postfix order, as text. -/
def text (expression : Expression) : String := expression.tokens.zipIdx.foldl writeToken ""

def evaluate (env : Environment) (ctx : Context) (expression : Expression) :
    Except EvaluationError Float :=
  Evaluation.value env ctx expression.tokens

/-- The value where the unknown is `x`. -/
def evaluateAt (ctx : Context) (expression : Expression) (x : Float) :
    Except EvaluationError Float :=
  expression.evaluate (.constant x) ctx

/-- The questions that evaluation asks. -/
def calls (env : Environment) (ctx : Context) (expression : Expression) : List Evaluation.Call :=
  Evaluation.calls env ctx [] expression.tokens

end Expression

end Calculator
