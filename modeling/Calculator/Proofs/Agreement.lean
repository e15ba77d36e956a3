import Calculator.Proofs.Operands
import Calculator.Proofs.Tasks
import Calculator.Builtin.Meaning
import Calculator.Solution

/-!
# Calculating and solving agree

A run asks the environment only for the unknown. So tokens without it have the same value in
every environment, and tokens with it have none in the empty one: the run fails there, if not
before. Solving looks for a root in the second case and calculates in the first, and then its
outcome is that of calculating.
-/

namespace Calculator

namespace Evaluation

variable (ctx : Context)

theorem step_congr (env env' : Environment) (stack : List Float) {token : Token}
    (h : token ≠ .unknown) : step env ctx stack token = step env' ctx stack token := by
  cases hp : plan token stack with
  | none => simp only [step, hp]
  | some r =>
    obtain ⟨task, below⟩ := r
    have ht : task.perform env ctx = task.perform env' ctx := by
      cases task with
      | lookup name => exact (h (plan_eq_some hp).1).elim
      | constant value => rfl
      | function f arguments => rfl
      | unary op a => rfl
      | binary op a b => rfl
    simp only [step, hp, ht]

theorem run_congr (env env' : Environment) {tokens : List Token} (h : .unknown ∉ tokens)
    (stack : List Float) : run env ctx stack tokens = run env' ctx stack tokens := by
  induction tokens generalizing stack with
  | nil => rfl
  | cons token tokens ih =>
    obtain ⟨hne, h⟩ := not_or.mp (mt List.mem_cons.mpr h)
    rw [run_cons, run_cons, step_congr ctx env env' stack (Ne.symm hne)]
    congr 1
    funext later
    exact ih h later

/-- Without the unknown, the environment does not matter. -/
theorem value_congr (env env' : Environment) {tokens : List Token} (h : .unknown ∉ tokens) :
    value env ctx tokens = value env' ctx tokens := by
  rw [value, value, run_congr ctx env env' h]

/-- A run that meets the unknown without a value for it has failed by then. -/
theorem run_empty_of_unknown {tokens : List Token} (h : .unknown ∈ tokens) (stack : List Float) :
    ∃ e, run .empty ctx stack tokens = .error e := by
  induction tokens generalizing stack with
  | nil => cases h
  | cons token tokens ih =>
    rw [run_cons]
    obtain rfl | h := List.mem_cons.mp h
    · exact ⟨.undefinedVariable Token.unknownName, rfl⟩
    · cases hs : (step .empty ctx stack token).2 with
      | error e => exact ⟨e, rfl⟩
      | ok later => exact ih h later

theorem value_empty_of_unknown {tokens : List Token} (h : .unknown ∈ tokens) :
    ∃ e, value .empty ctx tokens = .error e := by
  obtain ⟨e, he⟩ := run_empty_of_unknown ctx h []
  exact ⟨e, value_of_run_error he⟩

end Evaluation

/-- The text can be read, and these are its tokens. -/
def Parses (text : String) (tokens : List Token) : Prop :=
  Token.ofText text = .ok tokens ∧ ∃ expression, Expression.ofTokens tokens = .ok expression

variable {ctx : Context} {text : String} {tokens : List Token} {expression : Expression}

theorem Expression.hasUnknown_ofTokens (h : ofTokens tokens = .ok expression) :
    expression.hasUnknown = true ↔ .unknown ∈ tokens := by
  cases hp : Postfix.ofInfix tokens with
  | error e =>
    rw [ofTokens, hp] at h
    cases h
  | ok p =>
    cases (ofTokens_eq_ok hp).symm.trans h
    exact (hasUnknown_iff ⟨p⟩).trans (Postfix.unknown_mem_ofInfix hp)

/-- The expression of a text mentions the unknown exactly if the text does. -/
theorem Parses.exists_expression (h : Parses text tokens) :
    ∃ expression, Expression.ofText text = .ok expression ∧
      (expression.hasUnknown = true ↔ .unknown ∈ tokens) := by
  obtain ⟨ht, expression, hx⟩ := h
  refine ⟨expression, ?_, Expression.hasUnknown_ofTokens hx⟩
  rw [Expression.ofText, ht]
  exact hx

@[simp] theorem mapError_ok {α ε ε' : Type} (f : ε → ε') (a : α) :
    (Except.ok a : Except ε α).mapError f = .ok a := rfl

@[simp] theorem mapError_error {α ε ε' : Type} (f : ε → ε') (e : ε) :
    (Except.error e : Except ε α).mapError f = .error (f e) := rfl

theorem parses_or_error (text : String) :
    (∃ tokens, Parses text tokens) ∨ ∃ e, Expression.ofText text = .error e := by
  cases ht : Token.ofText text with
  | error e =>
    refine .inr ⟨e, ?_⟩
    rw [Expression.ofText, ht]
    rfl
  | ok tokens =>
    cases hx : Expression.ofTokens tokens with
    | error e =>
      refine .inr ⟨e, ?_⟩
      rw [Expression.ofText, ht]
      exact hx
    | ok expression => exact .inl ⟨tokens, ht, expression, hx⟩

theorem evaluate_of_ok (env : Environment) (h : Expression.ofText text = .ok expression) :
    evaluate env ctx text = (expression.evaluate env ctx).mapError .evaluation := by
  rw [evaluate, h]
  rfl

theorem evaluate_of_error (env : Environment) {e : ParseError}
    (h : Expression.ofText text = .error e) : evaluate env ctx text = .error (.parse e) := by
  rw [evaluate, h]
  rfl

theorem solve_of_error {e : ParseError} (h : Expression.ofText text = .error e) :
    solve ctx text = .error (.parse e) := by
  rw [solve, solveWithEvents, h]

/-- With the unknown, solving is looking for a root. -/
theorem solve_of_unknown (h : Expression.ofText text = .ok expression)
    (hu : expression.hasUnknown = true) :
    solve ctx text = (expression.findRoot ctx).outcome.map .root := by
  rw [solve, solveWithEvents, h]
  simp [Expression.solve, hu]

/-- Without it, solving is calculating, and the environment does not matter. -/
theorem evaluate_of_known (h : Parses text tokens) (hu : .unknown ∉ tokens) :
    ∃ result : Except EvaluationError Float,
      (∀ env, evaluate env ctx text = result.mapError .evaluation) ∧
      solve ctx text = (result.mapError .evaluation).map .value := by
  obtain ⟨expression, hx, hiff⟩ := h.exists_expression
  have hn : expression.hasUnknown = false := by
    rw [Bool.eq_false_iff]
    exact mt hiff.mp hu
  have hp : .unknown ∉ expression.tokens := by
    rw [← Expression.hasUnknown_iff, hn]
    exact Bool.false_ne_true
  refine ⟨expression.evaluate .empty ctx, ?_, ?_⟩
  · intro env
    rw [evaluate_of_ok env hx, Expression.evaluate, Expression.evaluate,
      Evaluation.value_congr ctx env .empty hp]
  · rw [solve, solveWithEvents, hx]
    simp [Expression.solve, hn]

/-- A text that cannot be read fails alike both ways. A text without the unknown is solved by its
value, which is the same in every environment. A text with the unknown has no value by itself,
and no value solves it. -/
theorem solve_evaluate (ctx : Context) (text : String) :
    (∀ e, Expression.ofText text = .error e →
      (∀ env, evaluate env ctx text = .error (.parse e)) ∧ solve ctx text = .error (.parse e)) ∧
    (∀ tokens, Parses text tokens → .unknown ∉ tokens →
      (∀ v, solve ctx text = .ok (.value v) ↔ evaluate .empty ctx text = .ok v) ∧
      (∀ e, solve ctx text = .error (.evaluation e) ↔
        evaluate .empty ctx text = .error (.evaluation e)) ∧
      (∀ x, solve ctx text ≠ .ok (.root x)) ∧ solve ctx text ≠ .error .noSolutionFound ∧
      ∀ env, evaluate env ctx text = evaluate .empty ctx text) ∧
    (∀ tokens, Parses text tokens → .unknown ∈ tokens →
      (∃ e, evaluate .empty ctx text = .error (.evaluation e)) ∧
      ∀ v, solve ctx text ≠ .ok (.value v)) ∧
    ((∀ tokens, Parses text tokens → .unknown ∉ tokens) →
      ∀ e, solve ctx text = .error e ↔
        ∃ cause, evaluate .empty ctx text = .error cause ∧ cause.toSolveError = e) := by
  refine ⟨?_, ?_, ?_, ?_⟩
  · intro e he
    exact ⟨fun env => evaluate_of_error env he, solve_of_error he⟩
  · intro tokens hp hu
    obtain ⟨result, hv, hs⟩ := @evaluate_of_known ctx text tokens hp hu
    rw [hs, hv .empty]
    refine ⟨?_, ?_, ?_, ?_, fun env => hv env⟩
    all_goals cases result <;> simp [Except.map]
  · intro tokens hp hu
    obtain ⟨expression, hx, hiff⟩ := hp.exists_expression
    have hh := hiff.mpr hu
    constructor
    · obtain ⟨e, he⟩ :=
        Evaluation.value_empty_of_unknown ctx ((Expression.hasUnknown_iff expression).mp hh)
      refine ⟨e, ?_⟩
      rw [evaluate_of_ok .empty hx, Expression.evaluate, he]
      rfl
    · intro v
      rw [solve_of_unknown hx hh]
      cases (expression.findRoot ctx).outcome <;> simp [Except.map]
  · intro hu e
    obtain ⟨tokens, hp⟩ | ⟨cause, he⟩ := parses_or_error text
    · obtain ⟨result, hv, hs⟩ := @evaluate_of_known ctx text tokens hp (hu tokens hp)
      rw [hs, hv .empty]
      cases result <;> simp [Except.map, CalculationError.toSolveError]
    · rw [solve_of_error he, evaluate_of_error .empty he]
      simp [CalculationError.toSolveError]

/-- The statement above at `(`, `3!` and `x = 3`. -/
theorem solve_evaluate_three_texts :
    let ctx : Context := Mode.context {}
    let constant : List Token := [.number 3, .operator (.unary .factorial)]
    let equation : List Token := [.unknown, .operator (.binary .equals), .number 3]
    (Expression.ofText "(" = .error .unbalancedParentheses ∧
      solve ctx "(" = .error (.parse .unbalancedParentheses)) ∧
    (Parses "3!" constant ∧ .unknown ∉ constant ∧
      ∀ env, evaluate env ctx "3!" = evaluate .empty ctx "3!") ∧
    (Parses "x = 3" equation ∧ .unknown ∈ equation ∧
      ∃ e, evaluate .empty ctx "x = 3" = .error (.evaluation e)) ∧
    ((∀ tokens, Parses "3!" tokens → .unknown ∉ tokens) ∧
      ∀ e, solve ctx "3!" = .error e ↔
        ∃ cause, evaluate .empty ctx "3!" = .error cause ∧ cause.toSolveError = e) := by
  intro ctx constant equation
  have hopen : Expression.ofText "(" = .error .unbalancedParentheses := by decide +kernel
  have hconstant : Parses "3!" constant := ⟨by decide +kernel, ⟨_, rfl⟩⟩
  have hequation : Parses "x = 3" equation := ⟨by decide +kernel, ⟨_, rfl⟩⟩
  have hknown : .unknown ∉ constant := by simp [constant]
  have hunknown : .unknown ∈ equation := by simp [equation]
  have hall : ∀ tokens, Parses "3!" tokens → .unknown ∉ tokens := by
    intro tokens h
    cases h.1.symm.trans hconstant.1
    exact hknown
  exact ⟨⟨hopen, ((solve_evaluate ctx "(").1 _ hopen).2⟩,
    ⟨hconstant, hknown, ((solve_evaluate ctx "3!").2.1 _ hconstant hknown).2.2.2.2⟩,
    ⟨hequation, hunknown, ((solve_evaluate ctx "x = 3").2.2.1 _ hequation hunknown).1⟩,
    ⟨hall, (solve_evaluate ctx "3!").2.2.2 hall⟩⟩

end Calculator
