import Calculator.Proofs.FirstFault
import Calculator.Proofs.Positional
import Calculator.Proofs.Shape
import Calculator.Proofs.Agreement
import Calculator.Proofs.Delimiters
import Calculator.Solution

/-!
# Texts of one line

A solution is shown with digits, and a failure in fixed words with the place of the fault, a name
or a number in them. So neither ever has the end of a line within it.
-/

namespace Calculator

/-- The text has no end of a line within it. -/
def Text.OneLine (text : String) : Prop := '\n' ∉ text.toList

open Text (OneLine)

namespace Text

instance : DecidablePred OneLine := fun text =>
  inferInstanceAs (Decidable ('\n' ∉ text.toList))

@[simp] theorem oneLine_append (text more : String) :
    OneLine (text ++ more) ↔ OneLine text ∧ OneLine more := by
  simp [OneLine, not_or]

/-- Characters of a kind that the end of a line is not. -/
theorem oneLine_ofList {p : Char → Bool} {chars : List Char} (hp : p '\n' = false)
    (h : ∀ c ∈ chars, p c = true) : OneLine (String.ofList chars) := by
  intro hm
  rw [String.toList_ofList] at hm
  rw [h _ hm] at hp
  cases hp

/-! ## Numbers -/

theorem oneLine_plainText (x : Float) : OneLine (Binary64.plainText x) :=
  Binary64.notMem_plainText (by decide) (by decide) x

theorem oneLine_number (value : Float) : OneLine (Display.number value) := by
  simp only [Display.number]
  split <;> exact oneLine_plainText _

@[simp] theorem oneLine_toString (n : Nat) : OneLine (toString n) := by
  rw [Nat.toString_eq_repr, ← String.ofList_toList (s := n.repr), Nat.toList_repr]
  exact oneLine_ofList rfl fun c hc => Nat.isDigit_of_mem_toDigits (by decide +kernel) (by decide +kernel) hc

end Text

theorem Solution.oneLine_text (solution : Solution) : OneLine solution.text := by
  cases solution with
  | root x =>
    rw [Solution.text, Text.oneLine_append, Text.oneLine_append]
    exact ⟨⟨by decide +kernel, by decide +kernel⟩, Text.oneLine_plainText x⟩
  | value v => exact Text.oneLine_number v

/-! ## Failures of a text -/

theorem Token.Fault.oneLine_message {offset : Nat} {part rest : List Char} {e : ParseError}
    (h : Fault offset part rest e) : OneLine e.message := by
  cases h with
  | @character c rest h =>
    have hc : OneLine c.toString := by
      intro hm
      obtain rfl : '\n' = c := by simpa using hm
      cases h.blank
    change OneLine ("Invalid character '" ++ c.toString ++ "' at index " ++ toString offset)
    simp only [Text.oneLine_append, Text.oneLine_toString]
    exact ⟨⟨⟨by decide +kernel, hc⟩, by decide +kernel⟩, trivial⟩
  | number h =>
    have hrun : OneLine (String.ofList part) := Text.oneLine_ofList rfl h.chars
    change OneLine ("\"" ++ String.ofList part ++ "\" at " ++ toString offset ++ ".." ++
      toString (offset + (String.ofList part).utf8ByteSize) ++ " is not a valid number")
    simp only [Text.oneLine_append, Text.oneLine_toString]
    exact ⟨⟨⟨⟨⟨⟨by decide +kernel, hrun⟩, by decide +kernel⟩, trivial⟩, by decide +kernel⟩, trivial⟩, by decide +kernel⟩

theorem ParseError.oneLine_message {text : String} {e : ParseError}
    (h : Expression.ofText text = .error e) : OneLine e.message := by
  cases ht : Token.ofText text with
  | error e' =>
    rw [Expression.ofText, ht] at h
    cases h
    obtain ⟨before, part, after, tokens, -, -, hf⟩ := Token.exists_fault ht
    exact hf.oneLine_message
  | ok tokens =>
    rw [Expression.ofText, ht] at h
    change Expression.ofTokens tokens = .error e at h
    rw [Expression.ofTokens] at h
    obtain ⟨-, hp⟩ | ⟨-, -, p, hp⟩ | ⟨-, -, hp⟩ := Postfix.ofInfix_cases tokens
    · rw [hp] at h
      cases h
      decide +kernel
    · rw [hp] at h
      cases h
    · rw [hp] at h
      cases h
      decide +kernel

/-! ## Failures of an evaluation -/

theorem Builtin.oneLine_name (f : Builtin) : OneLine f.name :=
  fun hm => absurd (Token.isAlpha_of_mem_name f _ hm) (by decide +kernel)

theorem EvaluationError.oneLine_mathError {operation : String} (h : OneLine operation) :
    OneLine (mathError operation).message := by
  change OneLine ("Math error in '" ++ operation ++ "'")
  rw [Text.oneLine_append, Text.oneLine_append]
  exact ⟨⟨by decide +kernel, h⟩, by decide +kernel⟩

/-- What the context answers when it fails is worded in one line. -/
def Context.OneLine (ctx : Context) : Prop :=
  (∀ f arguments e, ctx.apply f arguments = .error e → Text.OneLine e.message) ∧
  ∀ n e, ctx.factorial n = .error e → Text.OneLine e.message

theorem Mode.oneLine_context (mode : Mode) (E : Elementary) : (mode.context E).OneLine := by
  constructor
  · intro f arguments e h
    by_cases hl : arguments.length = f.arity
    · obtain rfl := Builtin.refuses_apply E mode hl e h
      exact EvaluationError.oneLine_mathError f.oneLine_name
    · cases (Builtin.apply_of_length_ne E mode hl).symm.trans h
      decide +kernel
  · intro n e h
    change Combinatorics.factorial n = .error e at h
    unfold Combinatorics.factorial at h
    split at h
    · cases h
      change OneLine ("Invalid factorial: " ++ Binary64.plainText n ++ "!")
      rw [Text.oneLine_append, Text.oneLine_append]
      exact ⟨⟨by decide +kernel, Text.oneLine_plainText n⟩, by decide +kernel⟩
    · split at h <;> cases h

namespace Evaluation

variable {env : Environment} {ctx : Context} {tokens : List Token} {e : EvaluationError}

theorem oneLine_of_checked {operation : String} {operands : List Float}
    {result : Except EvaluationError Float} (hop : OneLine operation)
    (hr : ∀ e, result = .error e → OneLine e.message)
    (h : (result.bind fun v => checked operation operands v) = .error e) : OneLine e.message := by
  cases result with
  | error e' =>
    cases h
    exact hr e rfl
  | ok v =>
    change checked operation operands v = .error e at h
    unfold checked at h
    split at h <;> cases h
    exact EvaluationError.oneLine_mathError hop

theorem oneLine_unary (hctx : ctx.OneLine) (op : UnaryOperator) (a : Float) :
    ∀ e, op.apply ctx a = .error e → OneLine e.message := by
  cases op with
  | factorial => exact hctx.2 a
  | bar => nofun
  | negate => nofun

theorem oneLine_symbol (op : BinaryOperator) : OneLine op.symbol := by
  cases op <;> decide

theorem oneLine_binary (op : BinaryOperator) (a b : Float) :
    ∀ e, op.apply a b = .error e → OneLine e.message := by
  intro e h
  rw [BinaryOperator.apply_eq] at h
  split at h <;> cases h
  exact EvaluationError.oneLine_mathError (oneLine_symbol op)

theorem oneLine_of_perform {stack : List Float} {task : Task} (hctx : ctx.OneLine)
    (hm : Meets env ctx stack tokens task) (h : task.perform env ctx = .error e) :
    OneLine e.message := by
  cases task with
  | constant value => cases h
  | lookup name =>
    obtain rfl := eq_unknownName_of_meets hm
    simp only [Task.perform] at h
    split at h <;> cases h
    decide +kernel
  | function f arguments => exact oneLine_of_checked f.oneLine_name (hctx.1 f arguments) h
  | unary op a =>
    have hop : OneLine op.symbol := by cases op <;> decide
    exact oneLine_of_checked hop (oneLine_unary hctx op a) h
  | binary op a b => exact oneLine_of_checked (oneLine_symbol op) (oneLine_binary op a b) h

/-- An evaluation fails with a message in one line, if the context does. -/
theorem oneLine_of_value (hctx : ctx.OneLine) (h : value env ctx tokens = .error e) :
    OneLine e.message := by
  obtain hr | rfl := value_eq_error h
  · obtain rfl | ⟨task, hm, ht⟩ := meets_of_run_error hr
    · decide +kernel
    · exact oneLine_of_perform hctx hm ht
  · decide +kernel

end Evaluation

/-! ## Failures of a search -/

/-- A search fails as the function does, or finds nothing. -/
theorem Root.outcome_eq_error {f : Float → Except EvaluationError Float} {done left : Nat}
    {x : Float} {e : SolveError} (h : (searchFrom f done left x).outcome = .error e) :
    e = .noSolutionFound ∨ ∃ y e', f y = .error e' ∧ e = .evaluation e' := by
  induction left generalizing done x with
  | zero =>
    cases h
    exact .inl rfl
  | succ left ih =>
    rw [searchFrom] at h
    cases hx : f x with
    | error e' =>
      rw [hx] at h
      cases h
      exact .inr ⟨x, e', hx, rfl⟩
    | ok value =>
      rw [hx] at h
      cases hy : f (x + difference) with
      | error e' =>
        simp only [hy] at h
        cases h
        exact .inr ⟨_, e', hy, rfl⟩
      | ok ahead =>
        simp only [hy] at h
        split at h
        · exact ih h
        · split at h
          · cases h
          · exact ih h

/-- Solving fails with a message in one line, if the context does. -/
theorem SolveError.oneLine_message {ctx : Context} (hctx : ctx.OneLine) {text : String}
    {e : SolveError} (h : solve ctx text = .error e) : OneLine e.message := by
  have hevaluation : ∀ env tokens e', Evaluation.value env ctx tokens = .error e' →
      OneLine (SolveError.evaluation e').message := by
    intro env tokens e' hv
    rw [SolveError.message, Text.oneLine_append]
    exact ⟨by decide +kernel, Evaluation.oneLine_of_value hctx hv⟩
  cases hx : Expression.ofText text with
  | error e' =>
    cases (solve_of_error hx).symm.trans h
    exact ParseError.oneLine_message hx
  | ok expression =>
    cases hu : expression.hasUnknown with
    | true =>
      rw [solve_of_unknown hx hu] at h
      cases ho : (expression.findRoot ctx).outcome with
      | ok v =>
        rw [ho] at h
        cases h
      | error e' =>
        rw [ho] at h
        cases h
        obtain rfl | ⟨y, e', hf, rfl⟩ := Root.outcome_eq_error ho
        · decide +kernel
        · exact hevaluation _ _ e' hf
    | false =>
      rw [solve, solveWithEvents, hx] at h
      simp only [Expression.solve, hu] at h
      cases hv : expression.evaluate .empty ctx with
      | ok v =>
        simp [hv, Except.mapError, Except.map] at h
      | error e' =>
        simp [hv, Except.mapError, Except.map] at h
        subst h
        exact hevaluation _ _ e' hv

end Calculator
