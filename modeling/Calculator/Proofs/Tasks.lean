import Calculator.Proofs.Meaning

/-!
# What a run comes to

A token that finds its operands takes just these off the stack, the last one from the top, and
has one task. A run comes to the task of its first token and, if that succeeds, to those of the
tokens after it. All that the context is ever asked comes from such a task.
-/

namespace Calculator.Evaluation

/-- The values that the task works on. -/
def Task.operands : Task → List Float
  | constant _ | lookup _ => []
  | function _ arguments => arguments
  | unary _ a => [a]
  | binary _ a b => [a, b]

/-- The token that has the task. -/
def Task.token : Task → Token
  | constant value => .number value
  | lookup _ => .unknown
  | function f _ => .function f
  | unary op _ => .operator (.unary op)
  | binary op _ _ => .operator (.binary op)

/-- The values that are handed over with the question. -/
def Call.arguments : Call → List Float
  | lookup _ => []
  | function _ arguments => arguments
  | factorial n => [n]

variable {env : Environment} {ctx : Context} {token : Token} {tokens : List Token}
  {stack below : List Float} {task : Task}

/-- What is handed over with a question are the operands of the task that asks it. -/
theorem arguments_of_call? {call : Call} (h : task.call? = some call) :
    call.arguments = task.operands := by
  unfold Task.call? at h
  split at h <;> cases h <;> rfl

theorem eq_function_of_call? {f : Builtin} {arguments : List Float}
    (h : task.call? = some (.function f arguments)) : task = .function f arguments := by
  unfold Task.call? at h
  split at h <;> cases h
  rfl

/-- A planned task is that of the token, and works on as many values as the token takes. They were
on top of the stack. -/
theorem plan_eq_some (h : plan token stack = some (task, below)) :
    token = task.token ∧ token.operands? = some task.operands.length ∧
      stack = task.operands.reverse ++ below := by
  unfold plan at h
  split at h
  case h_3 =>
    split at h
    · rename_i hk
      cases h
      simp [Task.token, Task.operands, Token.operands?, hk]
    · cases h
  all_goals cases h
  all_goals exact ⟨rfl, rfl, rfl⟩

theorem eq_unknownName_of_plan {name : String}
    (h : plan token stack = some (.lookup name, below)) : name = Token.unknownName := by
  unfold plan at h
  split at h
  case h_2 =>
    cases h
    rfl
  case h_3 => split at h <;> cases h
  all_goals cases h

/-- A token that succeeds has performed its task, and left the value on what is below. -/
theorem step_eq_ok {later : List Float} (h : (step env ctx stack token).2 = .ok later) :
    ∃ task below v, plan token stack = some (task, below) ∧ task.perform env ctx = .ok v ∧
      later = v :: below := by
  cases hp : plan token stack with
  | none => simp [step, hp] at h
  | some r =>
    obtain ⟨task, below⟩ := r
    rw [step_eq env ctx hp] at h
    cases hv : task.perform env ctx with
    | error e =>
      rw [hv] at h
      cases h
    | ok v =>
      rw [hv] at h
      cases h
      exact ⟨task, below, v, rfl, hv, rfl⟩

/-- A token that fails lacks operands, or its task fails. -/
theorem step_eq_error {e : EvaluationError} (h : (step env ctx stack token).2 = .error e) :
    e = .malformedExpression ∨
      ∃ task below, plan token stack = some (task, below) ∧ task.perform env ctx = .error e := by
  cases hp : plan token stack with
  | none =>
    simp only [step, hp] at h
    cases h
    exact .inl rfl
  | some r =>
    obtain ⟨task, below⟩ := r
    rw [step_eq env ctx hp] at h
    cases hv : task.perform env ctx with
    | error e' =>
      rw [hv] at h
      cases h
      exact .inr ⟨task, below, rfl, hv⟩
    | ok v =>
      rw [hv] at h
      cases h

theorem run_cons_eq_ok {later : List Float}
    (h : run env ctx stack (token :: tokens) = .ok later) :
    ∃ reached, (step env ctx stack token).2 = .ok reached ∧
      run env ctx reached tokens = .ok later := by
  rw [run_cons] at h
  cases hs : (step env ctx stack token).2 with
  | error e =>
    rw [hs] at h
    cases h
  | ok reached =>
    rw [hs] at h
    exact ⟨reached, rfl, h⟩

/-- The run of tokens over a stack comes to a task. -/
inductive Meets (env : Environment) (ctx : Context) : List Float → List Token → Task → Prop where
  | here {stack below : List Float} {token : Token} {task : Task}
    (hp : plan token stack = some (task, below)) (tokens : List Token) :
    Meets env ctx stack (token :: tokens) task
  | later {stack reached : List Float} {token : Token} {tokens : List Token} {task : Task}
    (hs : (step env ctx stack token).2 = .ok reached) (hm : Meets env ctx reached tokens task) :
    Meets env ctx stack (token :: tokens) task

/-- What is asked of the context or the environment, a task asks that the run comes to. -/
theorem exists_meets_of_mem_calls {call : Call} (h : call ∈ calls env ctx stack tokens) :
    ∃ task, Meets env ctx stack tokens task ∧ task.call? = some call := by
  induction tokens generalizing stack with
  | nil => cases h
  | cons token tokens ih =>
    have hfirst : call ∈ (step env ctx stack token).1.toList →
        ∃ task, Meets env ctx stack (token :: tokens) task ∧ task.call? = some call := by
      intro h
      cases hp : plan token stack with
      | none => simp [step, hp] at h
      | some r =>
        obtain ⟨task, below⟩ := r
        simp only [step, hp, Option.mem_toList] at h
        exact ⟨task, .here hp tokens, h⟩
    cases hs : (step env ctx stack token).2 with
    | error e =>
      rw [calls_cons_of_error env ctx tokens hs] at h
      exact hfirst h
    | ok reached =>
      rw [calls_cons_of_ok env ctx tokens hs] at h
      obtain h | h := List.mem_append.mp h
      · exact hfirst h
      · obtain ⟨task, hm, hc⟩ := ih h
        exact ⟨task, .later hs hm, hc⟩

/-- Where a run fails, a token lacks operands or a task fails that the run comes to. -/
theorem meets_of_run_error {e : EvaluationError} (h : run env ctx stack tokens = .error e) :
    e = .malformedExpression ∨
      ∃ task, Meets env ctx stack tokens task ∧ task.perform env ctx = .error e := by
  induction tokens generalizing stack with
  | nil => cases h
  | cons token tokens ih =>
    rw [run_cons] at h
    cases hs : (step env ctx stack token).2 with
    | ok reached =>
      rw [hs] at h
      obtain he | ⟨task, hm, ht⟩ := ih h
      · exact .inl he
      · exact .inr ⟨task, .later hs hm, ht⟩
    | error e' =>
      rw [hs] at h
      cases h
      obtain he | ⟨task, below, hp, ht⟩ := step_eq_error hs
      · exact .inl he
      · exact .inr ⟨task, .here hp tokens, ht⟩

/-- The environment is asked for the unknown and for nothing else. -/
theorem eq_unknownName_of_meets {name : String}
    (h : Meets env ctx stack tokens (.lookup name)) : name = Token.unknownName := by
  generalize ht : Task.lookup name = task at h
  induction h with
  | here hp tokens =>
    subst ht
    exact eq_unknownName_of_plan hp
  | later hs hm ih => exact ih ht

/-! ## The value -/

theorem value_of_run_error {e : EvaluationError} (h : run env ctx [] tokens = .error e) :
    value env ctx tokens = .error e := by
  rw [value, h]
  rfl

/-- More than one value, or none, is no value. -/
theorem value_of_length_ne {later : List Float} (h : run env ctx [] tokens = .ok later)
    (hl : later.length ≠ 1) : value env ctx tokens = .error .malformedExpression := by
  rw [value, h]
  rcases later with - | ⟨v, - | ⟨w, rest⟩⟩
  · rfl
  · exact absurd rfl hl
  · rfl

theorem value_of_singleton {v : Float} (h : run env ctx [] tokens = .ok [v]) :
    value env ctx tokens = .ok v := by
  rw [value, h]
  rfl

/-- The value of tokens is the only one that is left on the stack. -/
theorem value_eq_ok {v : Float} (h : value env ctx tokens = .ok v) :
    run env ctx [] tokens = .ok [v] := by
  cases hr : run env ctx [] tokens with
  | error e => cases (value_of_run_error hr).symm.trans h
  | ok later =>
    by_cases hl : later.length = 1
    · obtain ⟨w, rfl⟩ := List.length_eq_one_iff.mp hl
      cases (value_of_singleton hr).symm.trans h
      rfl
    · cases (value_of_length_ne hr hl).symm.trans h

/-- Without a value, the run fails, or it leaves a wrong number of values. -/
theorem value_eq_error {e : EvaluationError} (h : value env ctx tokens = .error e) :
    run env ctx [] tokens = .error e ∨ e = .malformedExpression := by
  cases hr : run env ctx [] tokens with
  | error e' =>
    cases (value_of_run_error hr).symm.trans h
    exact .inl rfl
  | ok later =>
    by_cases hl : later.length = 1
    · obtain ⟨v, rfl⟩ := List.length_eq_one_iff.mp hl
      cases (value_of_singleton hr).symm.trans h
    · cases (value_of_length_ne hr hl).symm.trans h
      exact .inr rfl

end Calculator.Evaluation
