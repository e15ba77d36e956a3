import Calculator.Token
import Calculator.Error

/-!
# Evaluating postfix tokens

Tokens are taken from left to right over a stack of values. Each token takes its operands
off the stack and leaves one value. What functions and factorials mean is asked of a
`Context`, what variables mean of an `Environment`; every such question is a `Call`.

A result is never NaN unless an operand already was: an operation that would make one has
been applied outside its domain.
-/

namespace Calculator

/-- The meaning of functions and of the factorial. Arguments come in the order written. -/
structure Context where
  apply : Builtin → List Float → Except EvaluationError Float
  factorial : Float → Except EvaluationError Float

/-- The values of variables. -/
abbrev Environment := String → Option Float

namespace Environment

def empty : Environment := fun _ => none

/-- Every variable has the value `x`. -/
def constant (x : Float) : Environment := fun _ => some x

end Environment

def UnaryOperator.apply (ctx : Context) : UnaryOperator → Float → Except EvaluationError Float
  | factorial, a => ctx.factorial a
  | bar, a => .ok a.abs
  | negate, a => .ok (-a)

def BinaryOperator.apply : BinaryOperator → Float → Float → Except EvaluationError Float
  | plus, a, b => .ok (a + b)
  | minus, a, b | equals, a, b => .ok (a - b)
  | times, a, b => .ok (a * b)
  | divide, a, b => if b == 0 then .error (.mathError "/") else .ok (a / b)
  | modulo, a, b => if b == 0 then .error (.mathError "%") else .ok (Binary64.remainder a b)
  | power, a, b => .ok (a ^ b)

namespace Evaluation

/-- A question to the context or the environment. -/
inductive Call where
  | lookup (name : String)
  | function (f : Builtin) (arguments : List Float)
  | factorial (n : Float)
  deriving DecidableEq

/-- What a token asks for once its operands are known. -/
inductive Task where
  | constant (value : Float)
  | lookup (name : String)
  | function (f : Builtin) (arguments : List Float)
  | unary (op : UnaryOperator) (a : Float)
  | binary (op : BinaryOperator) (a b : Float)

/-- The task of a token over a stack, its top first, and the stack below the operands;
nothing where operands are missing or the token stands for no operation. -/
def plan : Token → List Float → Option (Task × List Float)
  | .number value, stack => some (.constant value, stack)
  | .unknown, stack => some (.lookup Token.unknownName, stack)
  | .function f, stack =>
    if f.arity ≤ stack.length then
      some (.function f (stack.take f.arity).reverse, stack.drop f.arity)
    else none
  | .operator (.unary op), a :: stack => some (.unary op a, stack)
  | .operator (.binary op), b :: a :: stack => some (.binary op a b, stack)
  | _, _ => none

/-- Refuses a NaN that no operand accounts for. -/
def checked (operation : String) (operands : List Float) (result : Float) :
    Except EvaluationError Float :=
  if result.isNaN && !operands.any Float.isNaN then .error (.mathError operation)
  else .ok result

namespace Task

/-- The question that the task asks. -/
def call? : Task → Option Call
  | lookup name => some (.lookup name)
  | function f arguments => some (.function f arguments)
  | unary .factorial n => some (.factorial n)
  | _ => none

/-- The value of the task. -/
def perform (env : Environment) (ctx : Context) : Task → Except EvaluationError Float
  | constant value => .ok value
  | lookup name =>
    match env name with
    | some value => .ok value
    | none => .error (.undefinedVariable name)
  | function f arguments => do checked f.name arguments (← ctx.apply f arguments)
  | unary op a => do checked op.symbol [a] (← op.apply ctx a)
  | binary op a b => do checked op.symbol [a, b] (← op.apply a b)

end Task

/-- Takes one token: the question it asks, and the stack after it. -/
def step (env : Environment) (ctx : Context) (stack : List Float) (token : Token) :
    Option Call × Except EvaluationError (List Float) :=
  match plan token stack with
  | some (task, below) => (task.call?, (task.perform env ctx).map (· :: below))
  | none => (none, .error .malformedExpression)

/-- Takes tokens one after the other, up to the first that fails. -/
def run (env : Environment) (ctx : Context) (stack : List Float) :
    List Token → Except EvaluationError (List Float)
  | [] => .ok stack
  | token :: tokens => do run env ctx (← (step env ctx stack token).2) tokens

@[simp] theorem run_nil (env : Environment) (ctx : Context) (stack : List Float) :
    run env ctx stack [] = .ok stack := rfl

theorem run_cons (env : Environment) (ctx : Context) (stack : List Float) (token : Token)
    (tokens : List Token) :
    run env ctx stack (token :: tokens) =
      (step env ctx stack token).2.bind fun later => run env ctx later tokens := rfl

/-- Running two lists in a row runs the second over the stack that the first leaves. -/
theorem run_append (env : Environment) (ctx : Context) (stack : List Float)
    (tokens more : List Token) :
    run env ctx stack (tokens ++ more) =
      (run env ctx stack tokens).bind fun later => run env ctx later more := by
  induction tokens generalizing stack with
  | nil => rfl
  | cons token tokens ih =>
    simp only [List.cons_append, run_cons]
    cases (step env ctx stack token).2 with
    | error e => rfl
    | ok later => exact ih later

/-- The questions asked on the way, in order. -/
def calls (env : Environment) (ctx : Context) (stack : List Float) : List Token → List Call
  | [] => []
  | token :: tokens =>
    let (call?, result) := step env ctx stack token
    call?.toList ++
      match result with
      | .ok stack => calls env ctx stack tokens
      | .error _ => []

/-- The value of postfix tokens, which must reduce to exactly one. -/
def value (env : Environment) (ctx : Context) (tokens : List Token) :
    Except EvaluationError Float := do
  match ← run env ctx [] tokens with
  | [v] => .ok v
  | _ => .error .malformedExpression

end Evaluation

end Calculator
