import Calculator.Builtin.Meaning
import Calculator.Proofs.Tasks

/-!
# Parts of a computation

A token takes its operands from the top of the stack and does not look below them. So tokens that
can be run over some stack do the same over a longer one, and what they leave is all that the
tokens after them can tell. A part of a computation that has a value is as good as this value.
-/

namespace Calculator.Evaluation

variable {env : Environment} {ctx : Context} {token : Token} {tokens part : List Token}
  {stack later below : List Float} {task : Task} {v : Float}

/-- A token that finds its operands has the same task over a longer stack. -/
theorem plan_append (h : plan token stack = some (task, below)) (base : List Float) :
    plan token (stack ++ base) = some (task, below ++ base) := by
  cases token with
  | number value =>
    cases h
    rfl
  | unknown =>
    cases h
    rfl
  | function f =>
    by_cases hk : f.arity ≤ stack.length
    · have hk' : f.arity ≤ (stack ++ base).length := by
        rw [List.length_append]
        omega
      rw [plan, if_pos hk] at h
      cases h
      rw [plan, if_pos hk', List.take_append_of_le_length hk, List.drop_append_of_le_length hk]
    · rw [plan, if_neg hk] at h
      cases h
  | operator op =>
    cases op with
    | unary op =>
      cases stack with
      | nil => cases h
      | cons a stack =>
        cases h
        rfl
    | binary op =>
      rcases stack with - | ⟨b, - | ⟨a, stack⟩⟩
      · cases h
      · cases h
      · cases h
        rfl
    | openParen => cases h
    | closeParen => cases h
    | comma => cases h

/-- A token that succeeds leaves alone what is below. -/
theorem step_append (h : (step env ctx stack token).2 = .ok later) (base : List Float) :
    (step env ctx (stack ++ base) token).2 = .ok (later ++ base) := by
  obtain ⟨task, below, v, hp, hv, rfl⟩ := step_eq_ok h
  rw [step_eq env ctx (plan_append hp base), hv]
  rfl

/-- So does a run that succeeds. -/
theorem run_over (h : run env ctx stack tokens = .ok later) (base : List Float) :
    run env ctx (stack ++ base) tokens = .ok (later ++ base) := by
  induction tokens generalizing stack with
  | nil =>
    cases h
    rfl
  | cons token tokens ih =>
    obtain ⟨reached, hs, hr⟩ := run_cons_eq_ok h
    rw [run_cons, step_append hs base]
    exact ih hr

/-- Numbers are put on the stack, the last one on top. -/
theorem run_numbers (env : Environment) (ctx : Context) (values stack : List Float) :
    run env ctx stack (values.map .number) = .ok (values.reverse ++ stack) := by
  induction values generalizing stack with
  | nil => rfl
  | cons v values ih =>
    rw [List.map_cons, run_cons, List.reverse_cons, List.append_assoc]
    exact ih (v :: stack)

/-- Tokens that leave values can be replaced by these values, whatever is around them. -/
theorem run_replace (h : run env ctx [] part = .ok later) (before after : List Token) :
    run env ctx stack (before ++ part ++ after) =
      run env ctx stack (before ++ later.reverse.map .number ++ after) := by
  have hpart : ∀ base, run env ctx base part = run env ctx base (later.reverse.map .number) := by
    intro base
    rw [run_numbers, List.reverse_reverse]
    exact run_over h base
  simp only [run_append, hpart]

/-- Tokens that have a value can be replaced by it, whatever is around them: the value of the whole
stays the same, or the error does. -/
theorem value_replace (h : value env ctx part = .ok v) (before after : List Token) :
    value env ctx (before ++ part ++ after) = value env ctx (before ++ [.number v] ++ after) := by
  rw [value, value, run_replace (value_eq_ok h)]
  rfl

/-- The statement above for `3 2 nCr` where the whole has a value, and where nothing is there for a
sign before it to work on. -/
theorem value_replace_nCr :
    let ctx : Context := Mode.context {}
    let plus : Token := .operator (.binary .plus)
    let part : List Token := [.number 3, .number 2, .function .nCr]
    value .empty ctx part = .ok 3 ∧
    (value .empty ctx ([.number 1] ++ part ++ [plus]) =
        value .empty ctx ([.number 1] ++ [.number 3] ++ [plus]) ∧
      value .empty ctx ([.number 1] ++ [.number 3] ++ [plus]) = .ok 4) ∧
    (value .empty ctx ([plus] ++ part ++ [.unknown]) =
        value .empty ctx ([plus] ++ [.number 3] ++ [.unknown]) ∧
      value .empty ctx ([plus] ++ [.number 3] ++ [.unknown]) = .error .malformedExpression) := by
  intro ctx plus part
  have h : value .empty ctx part = .ok 3 := by decide +kernel
  exact ⟨h, ⟨value_replace h [.number 1] [plus], by decide +kernel⟩,
    ⟨value_replace h [plus] [.unknown], by decide +kernel⟩⟩

end Calculator.Evaluation
