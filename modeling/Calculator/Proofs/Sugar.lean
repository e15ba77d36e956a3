import Calculator.Builtin.Meaning
import Calculator.Proofs.Likeness

/-!
# Equations and bars

An equation is evaluated as the difference of its sides, and bars as the absolute value. To write
them so changes no value, no root and no segment of a curve; only the name differs that is given
where a result is refused.
-/

namespace Calculator

/-- The token in other words: an equation is a difference, and bars are a call. -/
def Token.desugar : Token → Token
  | operator (.binary .equals) => operator (.binary .minus)
  | operator (.unary .bar) => function .abs
  | token => token

namespace Evaluation

open EvaluationError (Alike)

variable {env : Environment} {ctx : Context}

/-- Both sides are subtracted, whatever the operator is called. -/
theorem imitates_minus :
    Imitates Alike env ctx ctx (.operator (.binary .equals)) (.operator (.binary .minus)) := by
  intro stack
  match stack with
  | [] => exact step_sameBut_of_none .same rfl rfl
  | [a] => exact step_sameBut_of_none .same rfl rfl
  | b :: a :: below =>
    have hplan : plan (.operator (.binary .equals)) (b :: a :: below) =
        some (.binary .equals a b, below) := rfl
    have hplan' : plan (.operator (.binary .minus)) (b :: a :: below) =
        some (.binary .minus a b, below) := rfl
    exact step_sameBut hplan hplan' (checked_alike _ _ [a, b] (a - b))

/-- A call of the absolute value does what bars do, as it takes one argument. -/
theorem imitates_abs (habs : ∀ a, ctx.apply .abs [a] = .ok a.abs) :
    Imitates Alike env ctx ctx (.operator (.unary .bar)) (.function .abs) := by
  intro stack
  cases stack with
  | nil => exact step_sameBut_of_none .same rfl rfl
  | cons a below =>
    have hplan : plan (.operator (.unary .bar)) (a :: below) = some (.unary .bar a, below) := rfl
    have hplan' : plan (.function .abs) (a :: below) = some (.function .abs [a], below) := by
      simp [plan, Builtin.arity]
    have hcall : (Task.function .abs [a]).perform env ctx = checked Builtin.abs.name [a] a.abs := by
      rw [Task.perform, habs]
      rfl
    refine step_sameBut hplan hplan' ?_
    rw [hcall]
    exact checked_alike _ _ [a] a.abs

theorem imitates_desugar (habs : ∀ a, ctx.apply .abs [a] = .ok a.abs) (token : Token) :
    Imitates Alike env ctx ctx token token.desugar := by
  cases token with
  | number value => exact .refl .same _
  | unknown => exact .refl .same _
  | function f => exact .refl .same _
  | operator op =>
    cases op with
    | binary op =>
      cases op with
      | equals => exact imitates_minus
      | _ => exact .refl .same _
    | unary op =>
      cases op with
      | bar => exact imitates_abs habs
      | _ => exact .refl .same _
    | _ => exact .refl .same _

end Evaluation

/-- With differences in the place of equations, and with calls of the absolute value in the place of
bars, tokens come to the same value, or both fail at the same token and for the same reason, up to
the name of the operation. The search for a root goes the same way to the same outcome, up to that
name, and sampled curves have the same segments. -/
theorem endsAlike_desugar (E : Elementary) (mode : Mode) (tokens : List Token) :
    let ctx := mode.context E
    let plain : Expression := ⟨tokens.map Token.desugar⟩
    (∀ env, Evaluation.EndsAlike env ctx ctx tokens plain.tokens) ∧
      (Expression.findRoot ctx ⟨tokens⟩).Alike (plain.findRoot ctx) ∧
      ∀ range, (plain.sample ctx range).segments =
        (Expression.sample ctx range ⟨tokens⟩).segments := by
  intro ctx plain
  have hends : ∀ env, Evaluation.EndsAlike env ctx ctx tokens plain.tokens := fun env =>
    Evaluation.endsAlike_map fun token _ => Evaluation.imitates_desugar (fun _ => rfl) token
  have hvalue : ∀ x, SameBut EvaluationError.Alike (Expression.evaluateAt ctx ⟨tokens⟩ x)
      (plain.evaluateAt ctx x) := fun x => (hends (.constant x)).value
  exact ⟨hends, Root.searchFrom_alike hvalue 0 Root.maxIterations Root.initialGuess,
    Curve.segments_congr hvalue⟩

/-- An equation of infinite sides has no difference, under either name. -/
example :
    let sides : List Token := [.number (1 / 0), .number (1 / 0), .operator (.binary .equals)]
    let ctx : Context := Mode.context {}
    Evaluation.value .empty ctx sides = .error (.mathError "=") ∧
      Evaluation.value .empty ctx (sides.map Token.desugar) = .error (.mathError "-") := by
  decide +kernel

end Calculator
