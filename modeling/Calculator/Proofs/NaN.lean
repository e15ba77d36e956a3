import Calculator.Proofs.Tasks
import Calculator.Proofs.Lexemes
import Calculator.Proofs.Agreement

/-!
# NaN is never an answer

A task makes a NaN only out of one. So a run that begins without NaN, and finds none among its
numbers and variables, never has one on its stack, whatever the context says: neither the context
nor an operator is ever given a NaN, and none is the value. No text has a NaN among its numbers.
-/

namespace Calculator

/-- None of the values is NaN. -/
def NaNFree (values : List Float) : Prop := ∀ v ∈ values, v.isNaN = false

theorem NaNFree.append_iff {values more : List Float} :
    NaNFree (values ++ more) ↔ NaNFree values ∧ NaNFree more := List.forall_mem_append

/-- No variable is NaN. -/
def Environment.NaNFree (env : Environment) : Prop := ∀ name v, env name = some v → v.isNaN = false

/-- No number among the tokens is NaN. -/
def Token.NaNFree (tokens : List Token) : Prop := ∀ v, .number v ∈ tokens → v.isNaN = false

theorem Environment.naNFree_empty : Environment.empty.NaNFree := nofun

namespace Evaluation

variable {env : Environment} {ctx : Context} {token : Token} {tokens : List Token}
  {stack later : List Float} {task : Task} {v : Float}

/-- A NaN passes the check only if an operand accounts for it. -/
theorem isNaN_of_checked {operation : String} {operands : List Float} {result : Float}
    (h : checked operation operands result = .ok v) (hn : NaNFree operands) : v.isNaN = false := by
  rw [checked_eq_settled, Tree.settled] at h
  split at h
  · cases h
  · rename_i hc
    cases h
    by_contra hv
    exact hc ⟨by simpa using hv, hn⟩

theorem isNaN_of_checked_bind {operation : String} {operands : List Float}
    {result : Except EvaluationError Float}
    (h : (do checked operation operands (← result)) = .ok v) (hn : NaNFree operands) :
    v.isNaN = false := by
  cases result with
  | error e => cases h
  | ok r => exact isNaN_of_checked h hn

/-- A task that is given no NaN makes none. -/
theorem isNaN_of_perform (henv : env.NaNFree) (hn : NaNFree task.operands)
    (hc : ∀ c, task = .constant c → c.isNaN = false) (h : task.perform env ctx = .ok v) :
    v.isNaN = false := by
  cases task with
  | constant c =>
    cases h
    exact hc _ rfl
  | lookup name =>
    simp only [Task.perform] at h
    cases hv : env name with
    | none =>
      rw [hv] at h
      cases h
    | some value =>
      rw [hv] at h
      cases h
      exact henv name v hv
  | function f arguments => exact isNaN_of_checked_bind h hn
  | unary op a => exact isNaN_of_checked_bind h hn
  | binary op a b => exact isNaN_of_checked_bind h hn

theorem naNFree_step (henv : env.NaNFree) (ht : ∀ c, token = .number c → c.isNaN = false)
    (hn : NaNFree stack) (h : (step env ctx stack token).2 = .ok later) : NaNFree later := by
  obtain ⟨task, below, v, hp, hv, rfl⟩ := step_eq_ok h
  obtain ⟨htoken, -, hstack⟩ := plan_eq_some hp
  rw [hstack, NaNFree.append_iff] at hn
  have hop : NaNFree task.operands := fun a ha => hn.1 a (List.mem_reverse.mpr ha)
  have hc : ∀ c, task = .constant c → c.isNaN = false := by
    rintro c rfl
    exact ht c htoken
  exact List.forall_mem_cons.mpr ⟨isNaN_of_perform henv hop hc hv, hn.2⟩

theorem naNFree_run (henv : env.NaNFree) (ht : Token.NaNFree tokens) (hn : NaNFree stack)
    (h : run env ctx stack tokens = .ok later) : NaNFree later := by
  induction tokens generalizing stack with
  | nil =>
    cases h
    exact hn
  | cons token tokens ih =>
    obtain ⟨reached, hs, h⟩ := run_cons_eq_ok h
    have hfirst : ∀ c, token = .number c → c.isNaN = false :=
      fun c hc => ht c (hc ▸ List.mem_cons_self)
    exact ih (fun c hc => ht c (List.mem_cons_of_mem _ hc)) (naNFree_step henv hfirst hn hs) h

/-- Without NaN before it, a run comes to no task that works on one. -/
theorem naNFree_operands (henv : env.NaNFree) (ht : Token.NaNFree tokens) (hn : NaNFree stack)
    (h : Meets env ctx stack tokens task) : NaNFree task.operands := by
  induction h with
  | here hp tokens =>
    rw [(plan_eq_some hp).2.2, NaNFree.append_iff] at hn
    exact fun a ha => hn.1 a (List.mem_reverse.mpr ha)
  | later hs hm ih =>
    refine ih (fun c hc => ht c (List.mem_cons_of_mem _ hc)) (naNFree_step henv ?_ hn hs)
    exact fun c hc => ht c (hc ▸ List.mem_cons_self)

theorem isNaN_of_value (henv : env.NaNFree) (ht : Token.NaNFree tokens)
    (h : value env ctx tokens = .ok v) : v.isNaN = false :=
  naNFree_run henv ht (List.forall_mem_nil _) (value_eq_ok h) v List.mem_cons_self

end Evaluation

/-- The expression of a text is converted from its tokens. -/
theorem Expression.exists_ofInfix {text : String} {expression : Expression}
    (h : ofText text = .ok expression) :
    ∃ tokens, Token.ofText text = .ok tokens ∧
      Postfix.ofInfix tokens = .ok expression.tokens := by
  cases ht : Token.ofText text with
  | error e =>
    rw [ofText, ht] at h
    cases h
  | ok tokens =>
    rw [ofText, ht] at h
    change ofTokens tokens = .ok expression at h
    cases hp : Postfix.ofInfix tokens with
    | error e =>
      rw [ofTokens, hp] at h
      cases h
    | ok p =>
      cases (ofTokens_eq_ok hp).symm.trans h
      exact ⟨tokens, rfl, hp⟩

/-- No expression that is read from a text has a NaN. -/
theorem naNFree_ofText {text : String} {expression : Expression}
    (h : Expression.ofText text = .ok expression) : Token.NaNFree expression.tokens := by
  obtain ⟨tokens, ht, hp⟩ := Expression.exists_ofInfix h
  intro v hv
  -- numbers come out of the conversion as they went in
  have hmem : .number v ∈ tokens := by
    rw [← Postfix.mem_operands rfl, ← Postfix.operands_ofInfix hp, Postfix.mem_operands rfl]
    exact hv
  exact (((Token.written_of_scan ht).isWritten _ hmem).2 v rfl).1

/-- Where no number and no variable is NaN, neither is the value, and no operator and no answer of
the context comes to work on a NaN, whatever the context is. So no text has the value NaN. -/
theorem isNaN_value (ctx : Context) :
    (∀ env tokens, env.NaNFree → Token.NaNFree tokens →
      (∀ v, Evaluation.value env ctx tokens = .ok v → v.isNaN = false) ∧
      (∀ task, Evaluation.Meets env ctx [] tokens task → NaNFree task.operands) ∧
      ∀ call ∈ Evaluation.calls env ctx [] tokens, NaNFree call.arguments) ∧
    ∀ text v, evaluate .empty ctx text = .ok v → v.isNaN = false := by
  refine ⟨?_, ?_⟩
  · intro env tokens henv ht
    have hmeets : ∀ task, Evaluation.Meets env ctx [] tokens task → NaNFree task.operands :=
      fun task hm => Evaluation.naNFree_operands henv ht (List.forall_mem_nil _) hm
    refine ⟨fun v hv => Evaluation.isNaN_of_value henv ht hv, hmeets, ?_⟩
    intro call hcall
    obtain ⟨task, hm, hc⟩ := Evaluation.exists_meets_of_mem_calls hcall
    rw [Evaluation.arguments_of_call? hc]
    exact hmeets task hm
  · intro text v h
    cases hx : Expression.ofText text with
    | error e =>
      rw [evaluate_of_error .empty hx] at h
      cases h
    | ok expression =>
      rw [evaluate_of_ok .empty hx] at h
      cases hv : expression.evaluate .empty ctx with
      | error e =>
        rw [hv] at h
        cases h
      | ok w =>
        rw [hv] at h
        cases h
        exact Evaluation.isNaN_of_value Environment.naNFree_empty (naNFree_ofText hx) hv

/-- The statement above at `x / 3!` where `x` is infinite, and at `1 - .5`, with functions that
are always NaN. -/
theorem isNaN_value_infinite :
    let ctx : Context := ⟨fun _ _ => .ok Binary64.nan, Combinatorics.factorial⟩
    let env := Environment.constant Binary64.infinity
    let tokens : List Token := [.unknown, .number 3, .operator (.unary .factorial),
      .operator (.binary .divide)]
    (env.NaNFree ∧ Token.NaNFree tokens ∧
      Evaluation.value env ctx tokens = .ok Binary64.infinity ∧
      Binary64.infinity.isNaN = false ∧
      Evaluation.calls env ctx [] tokens = [.lookup "x", .factorial 3] ∧
      NaNFree (Evaluation.Call.factorial 3).arguments) ∧
    evaluate .empty ctx "1 - .5" = .ok 0.5 ∧ (0.5 : Float).isNaN = false := by
  intro ctx env tokens
  have henv : env.NaNFree := by
    intro name v h
    cases h
    rfl
  have ht : Token.NaNFree tokens := by
    intro v h
    obtain rfl : v = 3 := by simpa [tokens] using h
    rfl
  have hv : Evaluation.value env ctx tokens = .ok Binary64.infinity := by decide +kernel
  have hcalls : Evaluation.calls env ctx [] tokens = [.lookup "x", .factorial 3] := by
    decide +kernel
  have htext : evaluate .empty ctx "1 - .5" = .ok 0.5 := by decide +kernel
  obtain ⟨hvalue, -, hasked⟩ := (isNaN_value ctx).1 env tokens henv ht
  refine ⟨⟨henv, ht, hv, hvalue _ hv, hcalls, hasked _ ?_⟩, htext, (isNaN_value ctx).2 _ _ htext⟩
  rw [hcalls]
  simp

end Calculator
