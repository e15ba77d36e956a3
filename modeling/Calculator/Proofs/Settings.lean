import Calculator.Builtin.Meaning
import Calculator.Proofs.Accounting
import Calculator.Proofs.Likeness
import Calculator.Solution

/-!
# How far the settings reach

Whether names stand for inverses is asked by the six trigonometric functions only, the unit of
angles by these and the three inverse ones. Two modes that are the same for the functions among some
tokens cannot be told apart by evaluating the tokens, nor by searching, sampling or solving.
-/

namespace Calculator

namespace Builtin

/-- Can the name stand for the inverse function? -/
def isTrigonometric : Builtin → Bool
  | sin | cos | tan | sec | cosec | cot => true
  | _ => false

/-- Is the argument or the result of the function an angle? -/
def isAngular : Builtin → Bool
  | asin | acos | atan => true
  | f => f.isTrigonometric

end Builtin

/-- What the function depends on is the same in both modes. -/
structure Mode.AgreeFor (mode mode' : Mode) (f : Builtin) : Prop where
  angle : f.isAngular = true → mode.angle = mode'.angle
  inverse : f.isTrigonometric = true → mode.inverse = mode'.inverse

/-- The contexts cannot be told apart by the tokens. In postfix order they have the same value in
every environment, the same search for a root and the same curve; a text that has them, in the order
written, has the same solution. -/
structure Interchangeable (ctx ctx' : Context) (tokens : List Token) : Prop where
  value : ∀ env, Evaluation.value env ctx tokens = Evaluation.value env ctx' tokens
  findRoot : Expression.findRoot ctx ⟨tokens⟩ = Expression.findRoot ctx' ⟨tokens⟩
  sample : ∀ range, Expression.sample ctx range ⟨tokens⟩ = Expression.sample ctx' range ⟨tokens⟩
  solve : ∀ text, Token.ofText text = .ok tokens →
    solveWithEvents ctx text = solveWithEvents ctx' text

variable {E : Elementary} {mode mode' : Mode} {f : Builtin} {tokens : List Token}

/-! ## Functions -/

theorem Builtin.isAngular_of_isTrigonometric (h : f.isTrigonometric = true) :
    f.isAngular = true := by
  cases f with
  | sin | cos | tan | sec | cosec | cot => rfl
  | _ => cases h

theorem Builtin.apply_congr (h : mode.AgreeFor mode' f) (arguments : List Float) :
    f.apply E mode arguments = f.apply E mode' arguments := by
  obtain ⟨unit, inverse⟩ := mode
  obtain ⟨unit', inverse'⟩ := mode'
  cases f with
  | sin | cos | tan | sec | cosec | cot =>
    cases h.angle rfl
    cases h.inverse rfl
    rfl
  | asin | acos | atan =>
    cases h.angle rfl
    rcases arguments with _ | ⟨x, _ | ⟨y, rest⟩⟩ <;> rfl
  | _ => rcases arguments with _ | ⟨x, _ | ⟨y, _ | ⟨z, rest⟩⟩⟩ <;> rfl

namespace Evaluation

theorem imitates_of_agreeFor (env : Environment) {token : Token}
    (h : ∀ f, token = .function f → mode.AgreeFor mode' f) :
    Imitates Eq env (mode.context E) (mode'.context E) token token := by
  by_cases ht : ∃ f, token = .function f
  · obtain ⟨f, rfl⟩ := ht
    refine imitates_function (fun _ => rfl) rfl fun arguments _ => ?_
    have hperform : (Task.function f arguments).perform env (mode.context E) =
        (Task.function f arguments).perform env (mode'.context E) :=
      congrArg (·.bind (checked f.name arguments)) (Builtin.apply_congr (h f rfl) arguments)
    rw [hperform]
    exact .refl (fun _ => rfl) _
  · exact imitates_of_factorial (fun _ => rfl) rfl (not_exists.mp ht)

/-- The value of tokens depends on the settings only through their functions. -/
theorem value_congr_modes (h : ∀ f, .function f ∈ tokens → mode.AgreeFor mode' f)
    (env : Environment) :
    value env (mode.context E) tokens = value env (mode'.context E) tokens := by
  have himitates : ∀ token ∈ tokens,
      Imitates Eq env (mode.context E) (mode'.context E) token (id token) := by
    rintro token hm
    exact imitates_of_agreeFor env fun f hf => h f (hf ▸ hm)
  simpa using (value_sameBut (fun _ => rfl) himitates).eq

end Evaluation

/-! ## What is written -/

theorem Postfix.eq_function_of_contribution {completed : Bool} {token : Token}
    (h : .function f ∈ contribution completed token) : token = .function f := by
  cases token with
  | number value => simp [contribution] at h
  | unknown => simp [contribution] at h
  | function g => exact (List.mem_singleton.mp h).symm
  | operator op =>
    cases op with
    | unary op => cases op <;> cases completed <;> simp [contribution] at h
    | binary op => cases op <;> cases completed <;> simp [contribution] at h
    | openParen => cases h
    | closeParen => cases h
    | comma => cases h

/-- Conversion invents no function. -/
theorem Postfix.function_mem_of_ofInfix {p : List Token} (h : ofInfix tokens = .ok p)
    (hf : .function f ∈ p) : .function f ∈ tokens := by
  obtain ⟨token, hm, before, hplaced⟩ := mem_contributions ((perm_ofInfix h).mem_iff.mp hf)
  exact eq_function_of_contribution hplaced ▸ hm

/-! ## Whole programs -/

namespace Expression

variable {ctx ctx' : Context} {expression : Expression}

theorem findRoot_congr (h : ∀ env, expression.evaluate env ctx = expression.evaluate env ctx') :
    expression.findRoot ctx = expression.findRoot ctx' :=
  congrArg Root.search (funext fun x => h (.constant x))

theorem sample_congr (h : ∀ env, expression.evaluate env ctx = expression.evaluate env ctx')
    (range : Curve.Range) : expression.sample ctx range = expression.sample ctx' range :=
  congrArg (Curve.sample · range) (funext fun x => h (.constant x))

theorem solve_congr (h : ∀ env, expression.evaluate env ctx = expression.evaluate env ctx') :
    expression.solve ctx = expression.solve ctx' := by
  simp only [solve, findRoot_congr h, h .empty]

end Expression

/-- Modes that are the same for all functions among the tokens are interchangeable. -/
theorem interchangeable_of_agreeFor (h : ∀ f, .function f ∈ tokens → mode.AgreeFor mode' f) :
    Interchangeable (mode.context E) (mode'.context E) tokens where
  value := Evaluation.value_congr_modes h
  findRoot := Expression.findRoot_congr (Evaluation.value_congr_modes h)
  sample := Expression.sample_congr (Evaluation.value_congr_modes h)
  solve text ht := by
    have hx : Expression.ofText text = Expression.ofTokens tokens := by
      rw [Expression.ofText, ht]
      rfl
    rw [solveWithEvents, solveWithEvents, hx, Expression.ofTokens]
    cases hp : Postfix.ofInfix tokens with
    | error e => rfl
    | ok p =>
      have hp' : ∀ f, .function f ∈ p → mode.AgreeFor mode' f :=
        fun f hf => h f (Postfix.function_mem_of_ofInfix hp hf)
      have hsolve : Expression.solve (mode.context E) ⟨p⟩ =
          Expression.solve (mode'.context E) ⟨p⟩ :=
        Expression.solve_congr (Evaluation.value_congr_modes hp')
      simp only [bind, Except.bind, pure, Except.pure, hsolve]

/-- All modes are interchangeable where no function has to do with angles, and those with the same
unit of angles where no name can stand for an inverse. -/
theorem interchangeable_modes (E : Elementary) (tokens : List Token) :
    ((∀ f, .function f ∈ tokens → f.isAngular = false) →
      ∀ mode mode' : Mode, Interchangeable (mode.context E) (mode'.context E) tokens) ∧
    ((∀ f, .function f ∈ tokens → f.isTrigonometric = false) →
      ∀ mode mode' : Mode, mode.angle = mode'.angle →
        Interchangeable (mode.context E) (mode'.context E) tokens) := by
  constructor
  · intro h mode mode'
    have hnone : ∀ f, .function f ∈ tokens → f.isAngular ≠ true :=
      fun f hf => Bool.eq_false_iff.mp (h f hf)
    exact interchangeable_of_agreeFor fun f hf => ⟨fun ha => (hnone f hf ha).elim,
      fun ht => (hnone f hf (Builtin.isAngular_of_isTrigonometric ht)).elim⟩
  · intro h mode mode' hunit
    exact interchangeable_of_agreeFor fun f hf => ⟨fun _ => hunit,
      fun ht => (Bool.eq_false_iff.mp (h f hf) ht).elim⟩

/-- The statement above at `x ln 2 =`, and at the text `asin x = 30`, whose solution does not depend
on whether `sin` stands for the arcsine. -/
theorem interchangeable_modes_arcsine :
    let plain : Mode := ⟨.degrees, false⟩
    let inverse : Mode := ⟨.degrees, true⟩
    let radians : Mode := ⟨.radians, true⟩
    let logarithm : List Token := [.unknown, .function .ln, .number 2, .operator (.binary .equals)]
    let arcsine : List Token :=
      [.function .asin, .unknown, .operator (.binary .equals), .number 30]
    (∀ f, .function f ∈ logarithm → f.isAngular = false) ∧
      Interchangeable plain.context radians.context logarithm ∧
      (∀ f, .function f ∈ arcsine → f.isTrigonometric = false) ∧ plain.angle = inverse.angle ∧
      Token.ofText "asin x = 30" = .ok arcsine ∧
      solveWithEvents plain.context "asin x = 30" =
        solveWithEvents inverse.context "asin x = 30" := by
  intro plain inverse radians logarithm arcsine
  have hlogarithm : ∀ f, .function f ∈ logarithm → f.isAngular = false := by
    simp [logarithm, Builtin.isAngular, Builtin.isTrigonometric]
  have harcsine : ∀ f, .function f ∈ arcsine → f.isTrigonometric = false := by
    simp [arcsine, Builtin.isTrigonometric]
  have htext : Token.ofText "asin x = 30" = .ok arcsine := by decide +kernel
  exact ⟨hlogarithm, (interchangeable_modes .machine logarithm).1 hlogarithm plain radians,
    harcsine, rfl, htext,
    ((interchangeable_modes .machine arcsine).2 harcsine plain inverse rfl).solve _ htext⟩

end Calculator
