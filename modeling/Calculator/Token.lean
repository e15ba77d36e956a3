import Calculator.Builtin
import Calculator.Operator
import Calculator.Decimal.Text

/-!
# Tokens

The lexical elements of an expression, both as written and in postfix order.
-/

namespace Calculator

inductive Token where
  | number (value : Float)
  /-- the unknown of an equation, written `x` -/
  | unknown
  | function (f : Builtin)
  | operator (op : Operator)
  deriving DecidableEq

namespace Token

/-- The name of the only free variable. -/
def unknownName : String := "x"

def isUnknown : Token → Bool
  | unknown => true
  | _ => false

def text : Token → String
  | number value => Binary64.plainText value
  | unknown => unknownName
  | function f => f.name
  | operator op => op.symbol

/-- The texts of the tokens with a space between neighbours. -/
def listText (tokens : List Token) : String := " ".intercalate (tokens.map text)

end Token

end Calculator
