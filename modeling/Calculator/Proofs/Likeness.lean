import Calculator.Curve
import Calculator.Proofs.Search
import Calculator.Proofs.Tasks

/-!
# Runs that go alike

Tokens can be replaced, and so can the context, by others that do the same to every stack, but
perhaps fail for another reason. The run then has the same stack before every token, so it fails
at the same token or comes to the same values. Where two functions have the same values and fail
alike, a search for a root tries the same places in both, and a sampled curve has the same segments.
-/

namespace Calculator

/-- The same value, or failures that are related. -/
inductive SameBut {ε α : Type} (R : ε → ε → Prop) : Except ε α → Except ε α → Prop where
  | value (a : α) : SameBut R (.ok a) (.ok a)
  | failure {e e' : ε} (h : R e e') : SameBut R (.error e) (.error e')

/-- The same error, but perhaps with the name of another operation. -/
inductive EvaluationError.Alike : EvaluationError → EvaluationError → Prop where
  | same (e : EvaluationError) : Alike e e
  | mathError (operation operation' : String) : Alike (.mathError operation) (.mathError operation')

/-- The same error, but perhaps with the name of another operation. -/
inductive SolveError.Alike : SolveError → SolveError → Prop where
  | same (e : SolveError) : Alike e e
  | evaluation {e e' : EvaluationError} (h : e.Alike e') : Alike (.evaluation e) (.evaluation e')

namespace SameBut

variable {ε ε' α β : Type} {R : ε → ε → Prop} {r r' : Except ε α}

theorem refl (hR : ∀ e, R e e) (r : Except ε α) : SameBut R r r := by
  cases r with
  | error e => exact .failure (hR e)
  | ok a => exact .value a

theorem eq_ok_iff (h : SameBut R r r') (a : α) : r = .ok a ↔ r' = .ok a := by
  cases h with
  | value b => exact Iff.rfl
  | failure hR => exact ⟨nofun, nofun⟩

theorem exists_error_iff (h : SameBut R r r') : (∃ e, r = .error e) ↔ ∃ e, r' = .error e := by
  cases h with
  | value b => exact Iff.rfl
  | failure hR => exact ⟨fun _ => ⟨_, rfl⟩, fun _ => ⟨_, rfl⟩⟩

theorem bind {f f' : α → Except ε β} (h : SameBut R r r') (hf : ∀ a, SameBut R (f a) (f' a)) :
    SameBut R (r.bind f) (r'.bind f') := by
  cases h with
  | value a => exact hf a
  | failure hR => exact .failure hR

theorem map (f : α → β) (h : SameBut R r r') : SameBut R (r.map f) (r'.map f) := by
  cases h with
  | value a => exact .value (f a)
  | failure hR => exact .failure hR

/-- With no other failure allowed, nothing differs. -/
theorem eq (h : SameBut Eq r r') : r = r' := by
  cases h with
  | value a => rfl
  | failure hR => rw [hR]

end SameBut

namespace Evaluation

variable {R : EvaluationError → EvaluationError → Prop} {env : Environment} {ctx ctx' : Context}
  {token token' : Token} {tokens : List Token} {stack below : List Float} {task task' : Task}
  {replace : Token → Token}

/-! ## One token -/

/-- What the first token does to a stack, the second one does in the other context. -/
def Imitates (R : EvaluationError → EvaluationError → Prop) (env : Environment)
    (ctx ctx' : Context) (token token' : Token) : Prop :=
  ∀ stack, SameBut R (step env ctx stack token).2 (step env ctx' stack token').2

theorem Imitates.refl (hR : ∀ e, R e e) (token : Token) : Imitates R env ctx ctx token token :=
  fun _ => .refl hR _

/-- Tokens that take the same operands do the same if their tasks have the same value. -/
theorem step_sameBut (hp : plan token stack = some (task, below))
    (hp' : plan token' stack = some (task', below))
    (h : SameBut R (task.perform env ctx) (task'.perform env ctx')) :
    SameBut R (step env ctx stack token).2 (step env ctx' stack token').2 := by
  rw [step_eq env ctx hp, step_eq env ctx' hp']
  exact h.map _

/-- Tokens that both lack operands fail for the same reason. -/
theorem step_sameBut_of_none (hR : ∀ e, R e e) (hp : plan token stack = none)
    (hp' : plan token' stack = none) :
    SameBut R (step env ctx stack token).2 (step env ctx' stack token').2 := by
  simp only [step, hp, hp']
  exact .failure (hR _)

/-- Functions that take as many arguments do the same if they have the same values. -/
theorem imitates_function (hR : ∀ e, R e e) {f g : Builtin} (ha : g.arity = f.arity)
    (h : ∀ arguments, arguments.length = f.arity →
      SameBut R ((Task.function f arguments).perform env ctx)
        ((Task.function g arguments).perform env ctx')) :
    Imitates R env ctx ctx' (.function f) (.function g) := by
  intro stack
  by_cases hk : f.arity ≤ stack.length
  · have hl : (stack.take f.arity).reverse.length = f.arity := by simp [hk]
    refine step_sameBut (if_pos hk) ?_ (h _ hl)
    rw [plan, ha, if_pos hk]
  · refine step_sameBut_of_none hR (if_neg hk) ?_
    rw [plan, ha, if_neg hk]

/-- Apart from functions, the context is asked for factorials only. -/
theorem imitates_of_factorial (hR : ∀ e, R e e) (hc : ctx.factorial = ctx'.factorial)
    (ht : ∀ f, token ≠ .function f) : Imitates R env ctx ctx' token token := by
  intro stack
  cases hp : plan token stack with
  | none => exact step_sameBut_of_none hR hp hp
  | some r =>
    obtain ⟨task, below⟩ := r
    have hperform : task.perform env ctx = task.perform env ctx' := by
      cases task with
      | constant value => rfl
      | lookup name => rfl
      | function f arguments => exact (ht f (plan_eq_some hp).1).elim
      | unary op a =>
        cases op with
        | factorial => simp only [Task.perform, UnaryOperator.apply, hc]
        | bar => rfl
        | negate => rfl
      | binary op a b => rfl
    refine step_sameBut hp hp ?_
    rw [hperform]
    exact .refl hR _

/-- The same result is refused for the same operands, under whatever name. -/
theorem checked_alike (name name' : String) (operands : List Float) (v : Float) :
    SameBut EvaluationError.Alike (checked name operands v) (checked name' operands v) := by
  rw [checked, checked]
  split
  · exact .failure (.mathError name name')
  · exact .value v

/-! ## All tokens -/

/-- A run in which every token is imitated has the same values in the end, or fails alike. -/
theorem run_sameBut (h : ∀ token ∈ tokens, Imitates R env ctx ctx' token (replace token))
    (stack : List Float) :
    SameBut R (run env ctx stack tokens) (run env ctx' stack (tokens.map replace)) := by
  induction tokens generalizing stack with
  | nil => exact .value stack
  | cons token tokens ih =>
    rw [List.map_cons, run_cons, run_cons]
    refine (h token List.mem_cons_self stack).bind ?_
    exact ih fun token hm => h token (List.mem_cons_of_mem _ hm)

theorem value_sameBut (hR : ∀ e, R e e)
    (h : ∀ token ∈ tokens, Imitates R env ctx ctx' token (replace token)) :
    SameBut R (value env ctx tokens) (value env ctx' (tokens.map replace)) :=
  (run_sameBut h []).bind fun _ => .refl hR _

/-- The token with the number `i` is the first that fails. -/
def FailsAt (env : Environment) (ctx : Context) (tokens : List Token) (i : Nat) : Prop :=
  (∃ stack, run env ctx [] (tokens.take i) = .ok stack) ∧
    ∃ e, run env ctx [] (tokens.take (i + 1)) = .error e

/-- The tokens of two lists have the same value, or they have none for the same reason, but perhaps
with the name of another operation; and the tokens that fail are in the same place. -/
structure EndsAlike (env : Environment) (ctx ctx' : Context) (tokens tokens' : List Token) :
    Prop where
  value : SameBut EvaluationError.Alike (value env ctx tokens) (value env ctx' tokens')
  failsAt : ∀ i, FailsAt env ctx tokens i ↔ FailsAt env ctx' tokens' i

theorem endsAlike_map
    (h : ∀ token ∈ tokens, Imitates EvaluationError.Alike env ctx ctx' token (replace token)) :
    EndsAlike env ctx ctx' tokens (tokens.map replace) where
  value := value_sameBut .same h
  failsAt i := by
    have hpart : ∀ k, SameBut EvaluationError.Alike (run env ctx [] (tokens.take k))
        (run env ctx' [] ((tokens.map replace).take k)) := by
      intro k
      rw [← List.map_take]
      exact run_sameBut (fun token hm => h token (List.mem_of_mem_take hm)) []
    simp only [FailsAt, (hpart i).eq_ok_iff, (hpart (i + 1)).exists_error_iff]

end Evaluation

/-! ## Searching -/

namespace Root

variable {f g : Float → Except EvaluationError Float}

/-- Two searches try the same places and tell the same on the way. They find the same root, or they
fail alike. -/
structure Report.Alike (report report' : Report) : Prop where
  probes : report'.probes = report.probes
  events : report'.events = report.events
  outcome : SameBut SolveError.Alike report.outcome report'.outcome

theorem Report.Alike.after {report report' : Report} (h : report.Alike report')
    (probes : List Float) (event : Event) :
    (report.after probes event).Alike (report'.after probes event) where
  probes := congrArg (probes ++ ·) h.probes
  events := congrArg (event :: ·) h.events
  outcome := h.outcome

theorem measure_sameBut (h : ∀ x, SameBut EvaluationError.Alike (f x) (g x)) (x : Float) :
    SameBut EvaluationError.Alike (measure f x) (measure g x) :=
  (h x).bind fun _ => (h _).bind fun _ => .value _

theorem probesAt_congr (h : ∀ x, SameBut EvaluationError.Alike (f x) (g x)) (x : Float) :
    probesAt g x = probesAt f x := by
  have hx := h x
  unfold probesAt
  generalize f x = r at hx
  generalize g x = r' at hx
  cases hx <;> rfl

/-- Functions that have the same values and fail alike are searched alike. -/
theorem searchFrom_alike (h : ∀ x, SameBut EvaluationError.Alike (f x) (g x)) (done left : Nat)
    (x : Float) : (searchFrom f done left x).Alike (searchFrom g done left x) := by
  induction left generalizing done x with
  | zero => exact ⟨rfl, rfl, .failure (.same _)⟩
  | succ left ih =>
    have hm := measure_sameBut h x
    have hp := probesAt_congr h x
    generalize hf : measure f x = r at hm
    generalize hg : measure g x = r' at hm
    cases hm with
    | failure he =>
      rw [searchFrom_of_error hf, searchFrom_of_error hg]
      exact ⟨hp, rfl, .failure (.evaluation he)⟩
    | value m =>
      by_cases hc : m.Converges x
      · rw [searchFrom_of_converges hf hc, searchFrom_of_converges hg hc]
        exact ⟨hp, rfl, .value _⟩
      · rw [searchFrom_of_passes hf hc, searchFrom_of_passes hg hc, hp]
        exact (ih (done + 1) (m.next x)).after _ _

end Root

/-! ## Sampling -/

namespace Curve

variable {f g : Float → Except EvaluationError Float} {drawing drawing' : Drawing}

/-- The same segments have been drawn, whatever broke the curve. -/
structure Drawing.Alike (drawing drawing' : Drawing) : Prop where
  complete : drawing'.complete = drawing.complete
  current : drawing'.current = drawing.current

theorem Drawing.Alike.segments (h : drawing.Alike drawing') :
    drawing'.segments = drawing.segments := by
  rw [Drawing.segments, h.complete, h.current, Drawing.segments]

theorem Drawing.Alike.extend (h : drawing.Alike drawing') {sample sample' : Sample}
    (hp : sample'.point? = sample.point?) :
    (drawing.extend sample).Alike (drawing'.extend sample') := by
  rw [Drawing.extend, Drawing.extend, hp]
  cases sample.point? with
  | none => exact ⟨h.segments, rfl⟩
  | some point => exact ⟨h.complete, congrArg (point :: ·) h.current⟩

theorem point?_congr {r r' : Except EvaluationError Float} (x : Float)
    (h : SameBut EvaluationError.Alike r r') : Sample.point? ⟨x, r'⟩ = Sample.point? ⟨x, r⟩ := by
  cases h <;> rfl

theorem foldl_extend_alike (hf : ∀ x, SameBut EvaluationError.Alike (f x) (g x))
    (places : List Float) (h : drawing.Alike drawing') :
    ((places.map fun x => Sample.mk x (f x)).foldl Drawing.extend drawing).Alike
      ((places.map fun x => Sample.mk x (g x)).foldl Drawing.extend drawing') := by
  induction places generalizing drawing drawing' with
  | nil => exact h
  | cons x places ih => exact ih (h.extend (point?_congr x (hf x)))

/-- Functions that have the same values and fail alike have the same segments. -/
theorem segments_congr (h : ∀ x, SameBut EvaluationError.Alike (f x) (g x)) (range : Range) :
    (sample g range).segments = (sample f range).segments :=
  congrArg List.reverse (foldl_extend_alike h range.places ⟨rfl, rfl⟩).segments

end Curve

end Calculator
