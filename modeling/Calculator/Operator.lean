/-!
# Operators and delimiters

Their symbols, how tightly each binds, and which way equals group.
-/

namespace Calculator

/-- The operators that take one operand. A bar stands for the absolute value of what is
between it and its partner; `negate` is the minus sign in front of an operand. -/
inductive UnaryOperator where
  | factorial | bar | negate
  deriving DecidableEq, Repr

/-- The operators that take two operands. An equation counts as the difference of its sides. -/
inductive BinaryOperator where
  | plus | minus | times | divide | modulo | power | equals
  deriving DecidableEq, Repr

/-- The operators, and the punctuation that only groups. -/
inductive Operator where
  | unary (op : UnaryOperator)
  | binary (op : BinaryOperator)
  | openParen | closeParen | comma
  deriving DecidableEq, Repr

def UnaryOperator.symbol : UnaryOperator → String
  | factorial => "!"
  | bar => "|"
  | negate => "neg"

def BinaryOperator.symbol : BinaryOperator → String
  | plus => "+"
  | minus => "-"
  | times => "*"
  | divide => "/"
  | modulo => "%"
  | power => "^"
  | equals => "="

namespace Operator

def symbol : Operator → String
  | unary op => op.symbol
  | binary op => op.symbol
  | openParen => "("
  | closeParen => ")"
  | comma => ","

def all : List Operator :=
  [binary .plus, binary .minus, binary .times, binary .divide, binary .modulo, binary .power,
    unary .factorial, unary .bar, openParen, closeParen, comma, binary .equals, unary .negate]

/-- The operator or delimiter that a character stands for. No character stands for `negate`. -/
def ofChar? : Char → Option Operator
  | '+' => some (binary .plus)
  | '-' => some (binary .minus)
  | '*' => some (binary .times)
  | '/' => some (binary .divide)
  | '%' => some (binary .modulo)
  | '^' => some (binary .power)
  | '!' => some (unary .factorial)
  | '|' => some (unary .bar)
  | '(' => some openParen
  | ')' => some closeParen
  | ',' => some comma
  | '=' => some (binary .equals)
  | _ => none

/-- The operator of the given symbol. -/
def ofSymbol? (symbol : String) : Option Operator := all.find? fun op => op.symbol == symbol

theorem mem_all (op : Operator) : op ∈ all := by
  rcases op with u | b | _ | _ | _
  · cases u <;> decide
  · cases b <;> decide
  all_goals decide

theorem ofSymbol?_symbol (op : Operator) : ofSymbol? op.symbol = some op := by
  rcases op with u | b | _ | _ | _
  · cases u <;> decide
  · cases b <;> decide
  all_goals decide

/-- How tightly the operator binds; nothing for what delimits a group. -/
def precedence : Operator → Option Nat
  | binary .equals => some 0
  | binary .plus | binary .minus => some 1
  | binary .times | binary .divide | binary .modulo => some 2
  | binary .power | unary .negate => some 3
  | unary .factorial => some 4
  | unary .bar | openParen | closeParen | comma => none

/-- Do equals group to the right? -/
def isRightAssociative : Operator → Bool
  | binary .power | unary .negate => true
  | _ => false

def isUnary : Operator → Bool
  | unary _ => true
  | _ => false

/-- Does `left`, with its operands complete, apply before `right` which comes next? -/
def precedes (left right : Operator) : Bool :=
  match left.precedence, right.precedence with
  | some p, some q => decide (q < p) || (p == q && !right.isRightAssociative)
  | _, _ => false

end Operator

end Calculator
