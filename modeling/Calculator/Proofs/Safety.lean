import Calculator.Solution
import Calculator.Proofs.Cursor
import Calculator.Proofs.Delimiters
import Calculator.Proofs.Dispatch

/-!
# Safety

The way from a text to its value, with guards at every operation that has a contract: places in the
text, the stack, the vector of arguments, the cases of an operator or of a trigonometric function,
and the counters of the products. Only the conversion to postfix order has nothing to guard.
-/

namespace Calculator

namespace Guarded

/-- The value of a text. -/
def evaluate (E : Elementary) (mode : Mode) (env : Environment) (text : String) :
    Option (Except CalculationError Float) := do
  match (← tokens text).bind Postfix.ofInfix with
  | .error e => return .error (.parse e)
  | .ok postfixTokens => return (← (value E mode env postfixTokens).run).mapError .evaluation

/-- Reading tokens and putting them into postfix order makes an expression. -/
theorem bind_ofInfix (text : String) :
    (Token.ofText text).bind Postfix.ofInfix = (Expression.ofText text).map Expression.tokens := by
  rw [Expression.ofText]
  cases Token.ofText text with
  | error e => rfl
  | ok tokens =>
    change Postfix.ofInfix tokens = (Expression.ofTokens tokens).map Expression.tokens
    rw [Expression.ofTokens]
    cases Postfix.ofInfix tokens <;> rfl

theorem evaluate_eq (E : Elementary) (mode : Mode) (env : Environment) (text : String) :
    evaluate E mode env text = some (Calculator.evaluate env (mode.context E) text) := by
  rw [evaluate, tokens_eq, Option.bind_eq_bind, Option.bind_some, bind_ofInfix,
    Calculator.evaluate]
  cases Expression.ofText text with
  | error e => rfl
  | ok expression =>
    change (ExceptT.run (value E mode env expression.tokens)).bind _ = _
    rw [value_eq]
    rfl

end Guarded

/-- Nothing in the pipeline is ever used outside its contract, and nothing runs forever. For every
text, every list of tokens, all numbers and all settings, there is a result, and it is the one that
the functions without guards have. -/
theorem pipeline_keeps_contracts (E : Elementary) (mode : Mode) (env : Environment) :
    (∀ text, Guarded.tokens text = some (Token.ofText text)) ∧
    (∀ tokens, (∃ p, Postfix.ofInfix tokens = .ok p) ∨
      Postfix.ofInfix tokens = .error .emptyExpression ∨
      Postfix.ofInfix tokens = .error .unbalancedParentheses) ∧
    (∀ tokens, Guarded.value E mode env tokens =
      .of (Evaluation.value env (mode.context E) tokens)) ∧
    (∀ f arguments, Guarded.call E mode f arguments = .of (f.apply E mode arguments)) ∧
    (∀ n, Guarded.factorial n = .of (Combinatorics.factorial n)) ∧
    (∀ n r, Guarded.permutations n r = .of (Combinatorics.permutations n r)) ∧
    (∀ n r, Guarded.combinations n r = .of (Combinatorics.combinations n r)) ∧
    ∀ text, Guarded.evaluate E mode env text =
      some (evaluate env (mode.context E) text) := by
  refine ⟨Guarded.tokens_eq, fun tokens => ?_, Guarded.value_eq E mode env,
    Guarded.call_eq E mode, Guarded.factorial_eq, Guarded.permutations_eq,
    Guarded.combinations_eq, Guarded.evaluate_eq E mode env⟩
  obtain ⟨-, he⟩ | ⟨-, -, hp⟩ | ⟨-, -, hu⟩ := Postfix.ofInfix_cases tokens
  · exact .inr (.inl he)
  · exact .inl hp
  · exact .inr (.inr hu)

end Calculator
