import Calculator.Builtin.Meaning
import Calculator.Proofs.Tasks

/-!
# What makes tokens malformed

Counting values finds the first token that lacks operands, or that more or less than one value
is left. A run has just as many values on its stack as are counted. So it stops at the first
defect, if no token before fails, and where there is no defect it stops for no such reason: the
built-in functions find a call malformed only for the number of its arguments.
-/

namespace Calculator

namespace Postfix

/-- The token does not find its operands among so many values. -/
def Lacks (depth : Nat) (token : Token) : Prop := ∀ k, token.operands? = some k → depth < k

/-- The tokens before the first that does not find its operands. -/
def soundPart (depth : Nat) : List Token → List Token
  | [] => []
  | token :: tokens =>
    match token.operands? with
    | some k => if k ≤ depth then token :: soundPart (depth - k + 1) tokens else []
    | none => []

theorem soundPart_cons {token : Token} {k depth : Nat} (tokens : List Token)
    (h : token.operands? = some k) (hk : k ≤ depth) :
    soundPart depth (token :: tokens) = token :: soundPart (depth - k + 1) tokens := by
  simp only [soundPart, h, if_pos hk]

theorem soundPart_of_lacks {token : Token} {depth : Nat} (tokens : List Token)
    (h : Lacks depth token) : soundPart depth (token :: tokens) = [] := by
  simp only [soundPart]
  cases ho : token.operands? with
  | none => rfl
  | some k => exact if_neg (Nat.not_le_of_lt (h k ho))

theorem lacks_or_exists (depth : Nat) (token : Token) :
    Lacks depth token ∨ ∃ k, token.operands? = some k ∧ k ≤ depth := by
  cases ho : token.operands? with
  | none => exact .inl (by simp [Lacks, ho])
  | some k =>
    obtain hk | hk := Nat.lt_or_ge depth k
    · exact .inl (by simpa [Lacks, ho] using hk)
    · exact .inr ⟨k, rfl, hk⟩

/-- The sound part can be counted, and the token after it lacks operands. -/
theorem exists_soundPart (depth : Nat) (tokens : List Token) :
    ∃ reached rest, tokens = soundPart depth tokens ++ rest ∧
      depthAfter depth (soundPart depth tokens) = some reached ∧
      ∀ token ∈ rest.head?, Lacks reached token := by
  induction tokens generalizing depth with
  | nil => exact ⟨depth, [], rfl, rfl, nofun⟩
  | cons token tokens ih =>
    obtain h | ⟨k, ho, hk⟩ := lacks_or_exists depth token
    · rw [soundPart_of_lacks tokens h]
      refine ⟨depth, token :: tokens, rfl, rfl, ?_⟩
      rintro _ ⟨⟩
      exact h
    · obtain ⟨reached, rest, hsplit, hd, hrest⟩ := ih (depth - k + 1)
      rw [soundPart_cons tokens ho hk]
      refine ⟨reached, rest, ?_, ?_, hrest⟩
      · rw [List.cons_append, ← hsplit]
      · rw [depthAfter_cons _ ho hk, hd]

end Postfix

namespace Builtin

variable {f : Builtin} {arguments : List Float} {a b : Except EvaluationError Float}

/-- The result fails only outside the domain of the function. -/
def Refuses (f : Builtin) (result : Except EvaluationError Float) : Prop :=
  ∀ e, result = .error e → e = .mathError f.name

@[simp] theorem refuses_ok (f : Builtin) (v : Float) : Refuses f (.ok v) := nofun

@[simp] theorem refuses_mathError (f : Builtin) : Refuses f (.error (.mathError f.name)) := by
  rintro e ⟨⟩
  rfl

@[simp] theorem refuses_ite {c : Prop} [Decidable c] :
    Refuses f (if c then a else b) ↔ (c → Refuses f a) ∧ (¬ c → Refuses f b) := by
  by_cases h : c <;> simp [h]

@[simp] theorem refuses_reciprocal (f : Builtin) (x : Float) : Refuses f (reciprocal f x) := by
  simp [reciprocal]

@[simp] theorem refuses_map {result : Except EvaluationError Float} (g : Float → Float) :
    Refuses f (g <$> result) ↔ Refuses f result := by
  cases result <;> simp [Refuses, Functor.map, Except.map]

@[simp] theorem refuses_permutations (n r : Float) :
    Refuses nPr (Combinatorics.permutations n r) := by
  simp [Combinatorics.permutations]

@[simp] theorem refuses_combinations (n r : Float) :
    Refuses nCr (Combinatorics.combinations n r) := by
  simp [Combinatorics.combinations]

/-- A call with as many arguments as the function takes fails only outside the domain. -/
theorem refuses_apply (E : Elementary) (mode : Mode) (hl : arguments.length = f.arity) :
    Refuses f (apply E mode f arguments) := by
  match arguments, hl with
  | [], hl => cases f <;> cases hl
  | [x], hl => cases f <;> simp_all [apply, arity]
  | [x, y], hl => cases f <;> simp_all [apply, arity]
  | _ :: _ :: _ :: _, hl => cases f <;> cases hl

theorem apply_of_length_ne (E : Elementary) (mode : Mode) (h : arguments.length ≠ f.arity) :
    apply E mode f arguments = .error .malformedExpression := by
  match arguments, h with
  | [], _ => cases f <;> rfl
  | [x], h => cases f <;> simp_all [apply, arity]
  | [x, y], h => cases f <;> simp_all [apply, arity]
  | _ :: _ :: _ :: _, _ => cases f <;> rfl

/-- A call is malformed exactly for the number of its arguments. -/
theorem apply_eq_malformed_iff (E : Elementary) (mode : Mode) (f : Builtin)
    (arguments : List Float) :
    apply E mode f arguments = .error .malformedExpression ↔ arguments.length ≠ f.arity := by
  constructor
  · intro h hl
    cases refuses_apply E mode hl _ h
  · exact apply_of_length_ne E mode

end Builtin

theorem Combinatorics.factorial_ne_malformed (n : Float) :
    factorial n ≠ .error .malformedExpression := by
  intro h
  unfold factorial at h
  split at h
  · cases h
  · split at h <;> cases h

namespace Evaluation

variable {env : Environment} {ctx : Context} {token : Token} {tokens : List Token}
  {stack later : List Float}

/-- A run has as many values on its stack as are counted. -/
theorem depthAfter_of_run (h : run env ctx stack tokens = .ok later) :
    Postfix.depthAfter stack.length tokens = some later.length := by
  induction tokens generalizing stack with
  | nil =>
    cases h
    rfl
  | cons token tokens ih =>
    obtain ⟨reached, hs, hr⟩ := run_cons_eq_ok h
    obtain ⟨task, below, v, hp, -, rfl⟩ := step_eq_ok hs
    obtain ⟨-, ho, rfl⟩ := plan_eq_some hp
    have hk : task.operands.length ≤ (task.operands.reverse ++ below).length := by simp
    have hl : (task.operands.reverse ++ below).length - task.operands.length + 1 =
        (v :: below).length := by simp
    rw [Postfix.depthAfter_cons tokens ho hk, hl]
    exact ih hr

theorem step_of_lacks (env : Environment) (ctx : Context)
    (h : Postfix.Lacks stack.length token) :
    (step env ctx stack token).2 = .error .malformedExpression := by
  cases hp : plan token stack with
  | none => simp only [step, hp]
  | some r =>
    obtain ⟨-, ho, rfl⟩ := plan_eq_some hp
    have hlt := h _ ho
    rw [List.length_append, List.length_reverse] at hlt
    omega

/-- What the sound part comes to decides how malformed tokens fail. -/
theorem value_of_not_wellFormed (env : Environment) (ctx : Context)
    (h : ¬ Postfix.WellFormed tokens) :
    value env ctx tokens = (run env ctx [] (Postfix.soundPart 0 tokens)).bind
      fun _ => .error .malformedExpression := by
  obtain ⟨reached, rest, hsplit, hd, hrest⟩ := Postfix.exists_soundPart 0 tokens
  have hrun := run_append env ctx [] (Postfix.soundPart 0 tokens) rest
  rw [← hsplit] at hrun
  cases hs : run env ctx [] (Postfix.soundPart 0 tokens) with
  | error e =>
    rw [hs] at hrun
    exact value_of_run_error hrun
  | ok stack =>
    rw [hs] at hrun
    have hlength : stack.length = reached :=
      Option.some.inj ((depthAfter_of_run hs).symm.trans hd)
    cases rest with
    | nil =>
      -- all tokens are sound, and the count of what is left is wrong
      rw [List.append_nil] at hsplit
      have hne : stack.length ≠ 1 := by
        rintro h1
        rw [← hsplit, ← hlength, h1] at hd
        exact h hd
      exact value_of_length_ne hrun hne
    | cons token rest =>
      have hlack : Postfix.Lacks stack.length token := hlength ▸ hrest token rfl
      refine value_of_run_error (hrun.trans ?_)
      change run env ctx stack (token :: rest) = _
      rw [run_cons, step_of_lacks env ctx hlack]
      rfl

/-- A call is asked with as many arguments as its function takes. -/
theorem length_of_meets {f : Builtin} {arguments : List Float}
    (h : Meets env ctx stack tokens (.function f arguments)) : arguments.length = f.arity := by
  generalize ht : Task.function f arguments = task at h
  induction h with
  | here hp tokens =>
    subst ht
    obtain ⟨rfl, ho, -⟩ := plan_eq_some hp
    exact (Option.some.inj ho).symm
  | later hs hm ih => exact ih ht

/-- The built-in functions find nothing malformed that a run comes to. -/
theorem answer_ne_malformed {E : Elementary} {mode : Mode} {call : Call}
    (h : call ∈ calls env (mode.context E) stack tokens) :
    call.answer env (mode.context E) ≠ .error .malformedExpression := by
  obtain ⟨task, hm, hc⟩ := exists_meets_of_mem_calls h
  cases call with
  | lookup name =>
    simp only [Call.answer]
    cases env name <;> simp
  | function f arguments =>
    obtain rfl := eq_function_of_call? hc
    intro ha
    exact (Builtin.apply_eq_malformed_iff E mode f arguments).mp ha (length_of_meets hm)
  | factorial n => exact Combinatorics.factorial_ne_malformed n

/-- Well-formed tokens are never found malformed with the built-in functions. -/
theorem value_ne_malformed (env : Environment) (E : Elementary) (mode : Mode)
    (h : Postfix.WellFormed tokens) :
    value env (mode.context E) tokens ≠ .error .malformedExpression := by
  intro hv
  cases hr : run env (mode.context E) [] tokens with
  | error e =>
    obtain rfl : e = .malformedExpression := by
      cases (value_of_run_error hr).symm.trans hv
      rfl
    have hd : Postfix.depthAfter ([] : List Float).length tokens = some 1 := h
    obtain ⟨call, hcall, ha⟩ := answer_of_run env (mode.context E) hd hr
    exact answer_ne_malformed hcall ha
  | ok later =>
    have hl : later.length = 1 := Option.some.inj ((depthAfter_of_run hr).symm.trans h)
    obtain ⟨v, rfl⟩ := List.length_eq_one_iff.mp hl
    cases (value_of_singleton hr).symm.trans hv

/-- Tokens without the right shape fail under every meaning of variables and functions: as the
tokens before the first defect do, and as malformed if these do not fail. Tokens with the right
shape are never malformed under the built-in functions, which find a call malformed exactly for
the number of its arguments. -/
theorem malformed_by_shape (tokens : List Token) :
    (¬ Postfix.WellFormed tokens → ∀ env ctx,
      (∀ e, run env ctx [] (Postfix.soundPart 0 tokens) = .error e →
        value env ctx tokens = .error e) ∧
      (∀ stack, run env ctx [] (Postfix.soundPart 0 tokens) = .ok stack →
        value env ctx tokens = .error .malformedExpression)) ∧
    (Postfix.WellFormed tokens → ∀ env E (mode : Mode),
      value env (mode.context E) tokens ≠ .error .malformedExpression) ∧
    ∀ E (mode : Mode) f arguments,
      (mode.context E).apply f arguments = .error .malformedExpression ↔
        arguments.length ≠ f.arity := by
  refine ⟨?_, fun h env E mode => value_ne_malformed env E mode h, ?_⟩
  · intro h env ctx
    rw [value_of_not_wellFormed env ctx h]
    constructor
    · intro e hs
      rw [hs]
      rfl
    · intro stack hs
      rw [hs]
      rfl
  · intro E mode f arguments
    exact Builtin.apply_eq_malformed_iff E mode f arguments

/-- The statement above where a division fails before the first defect, where a comma is the
defect, and where there is none. -/
theorem malformed_by_shape_three_lists :
    let fails : List Token := [.number 1, .number 0, .operator (.binary .divide),
      .operator (.binary .plus), .unknown]
    let comma : List Token := [.number 1, .number 2, .operator .comma]
    let call : List Token := [.unknown, .number 2, .function .nCr, .operator (.unary .factorial)]
    (¬ Postfix.WellFormed fails ∧
      run .empty (Mode.context {}) [] (Postfix.soundPart 0 fails) = .error (.mathError "/") ∧
      value .empty (Mode.context {}) fails = .error (.mathError "/")) ∧
    (¬ Postfix.WellFormed comma ∧
      run .empty (Mode.context {}) [] (Postfix.soundPart 0 comma) = .ok [2, 1] ∧
      value .empty (Mode.context {}) comma = .error .malformedExpression) ∧
    (Postfix.WellFormed call ∧ ∀ x,
      value (.constant x) (Mode.context {}) call ≠ .error .malformedExpression) := by
  intro fails comma call
  have hfails : ¬ Postfix.WellFormed fails := by decide
  have hdivision : run .empty (Mode.context {}) [] (Postfix.soundPart 0 fails) =
      .error (.mathError "/") := by decide +kernel
  have hcomma : ¬ Postfix.WellFormed comma := by decide
  have hstack : run .empty (Mode.context {}) [] (Postfix.soundPart 0 comma) = .ok [2, 1] := by
    decide +kernel
  have hcall : Postfix.WellFormed call := by decide
  exact ⟨⟨hfails, hdivision, ((malformed_by_shape fails).1 hfails _ _).1 _ hdivision⟩,
    ⟨hcomma, hstack, ((malformed_by_shape comma).1 hcomma _ _).2 _ hstack⟩,
    ⟨hcall, fun x => (malformed_by_shape call).2.1 hcall (.constant x) .machine {}⟩⟩

end Evaluation

end Calculator
