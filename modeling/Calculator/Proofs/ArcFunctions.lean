import Calculator.Builtin.Meaning
import Calculator.Proofs.Likeness
import Calculator.Proofs.Questions
import Calculator.Proofs.SpecialValues

/-!
# Inverse trigonometric functions

Where the trigonometric names stand for their inverses, the sine, the cosine and the tangent are the
functions that have names of their own. These look at their argument first and refuse what has no
arc; the others make a NaN of it, which is refused afterwards, since the argument was none. A NaN
that is the argument passes both ways.
-/

namespace Calculator

/-- The function that the sine, the cosine or the tangent stands for in the inverse mode. -/
def Builtin.arc : Builtin → Builtin
  | sin => asin
  | cos => acos
  | tan => atan
  | f => f

/-- The token with the inverse function in the place of the sine, the cosine or the tangent. -/
def Token.arc : Token → Token
  | function f => function f.arc
  | token => token

/-- Has the argument no arc, as it is no sine or cosine of any angle? -/
def BeyondOne (x : Float) : Prop := x < -1 ∨ 1 < x

/-- What is no sine or cosine has no arc. -/
structure Elementary.RefusesBeyondOne (E : Elementary) : Prop where
  asin : ∀ x, BeyondOne x → (E.asin x).isNaN = true
  acos : ∀ x, BeyondOne x → (E.acos x).isNaN = true

/-- Inverse functions that are right where the result is zero, and beyond one. -/
def Elementary.arcsNearZero : Elementary :=
  { machine with
    asin := fun x => if x < -1 || 1 < x then Binary64.nan else x
    acos := fun x => if x < -1 || 1 < x then Binary64.nan else 1 - x
    atan := id }

theorem BeyondOne.isNaN {x : Float} (h : BeyondOne x) : x.isNaN = false := by
  obtain h | h := h
  · exact (Binary64.isNaN_of_lt h).1
  · exact (Binary64.isNaN_of_lt h).2

theorem beyondOne_iff {x : Float} : (x < -1 || 1 < x) = true ↔ BeyondOne x := by
  simp [BeyondOne]

theorem Elementary.refusesBeyondOne_arcsNearZero : arcsNearZero.RefusesBeyondOne where
  asin x hx := by
    have h : arcsNearZero.asin x = Binary64.nan := if_pos (beyondOne_iff.mpr hx)
    rw [h]
    decide +kernel
  acos x hx := by
    have h : arcsNearZero.acos x = Binary64.nan := if_pos (beyondOne_iff.mpr hx)
    rw [h]
    decide +kernel

theorem AngleUnit.isNaN_ofRadians (unit : AngleUnit) {angle : Float} (h : angle.isNaN = true) :
    (unit.ofRadians angle).isNaN = true := by
  cases unit with
  | degrees => exact Binary64.isNaN_mul h _
  | radians => exact h

theorem Builtin.arity_arc (f : Builtin) : f.arc.arity = f.arity := by cases f <;> rfl

namespace Evaluation

open EvaluationError (Alike)

variable {E : Elementary} {env : Environment} {operands : List Float} {v x : Float}

/-- To refuse the NaN that comes of an argument is to refuse the argument. -/
theorem checked_alike_guard (name name' : String) (h : BeyondOne x → v.isNaN = true) :
    SameBut Alike (checked name [x] v)
      ((if x < -1 || 1 < x then .error (.mathError name') else .ok v :
        Except EvaluationError Float).bind (checked name' [x])) := by
  by_cases hx : BeyondOne x
  · have hargs : ∀ a ∈ [x], a.isNaN = false := by simpa using hx.isNaN
    rw [if_pos (beyondOne_iff.mpr hx), checked_of_isNaN (h hx) hargs]
    exact .failure (.mathError name name')
  · rw [if_neg (mt beyondOne_iff.mp hx)]
    exact checked_alike name name' [x] v

/-- In the inverse mode a call comes to what the call of the inverse function does. -/
theorem perform_arc (hE : E.RefusesBeyondOne) (unit : AngleUnit) {f : Builtin}
    {arguments : List Float} (hl : arguments.length = f.arity)
    (hf : f ≠ .sec ∧ f ≠ .cosec ∧ f ≠ .cot) :
    SameBut Alike ((Task.function f arguments).perform env (Mode.context ⟨unit, true⟩ E))
      ((Task.function f.arc arguments).perform env (Mode.context ⟨unit, true⟩ E)) := by
  have hone : f.arity = 1 → ∃ x, arguments = [x] :=
    fun h => List.length_eq_one_iff.mp (hl.trans h)
  cases f with
  | sin =>
    obtain ⟨x, rfl⟩ := hone rfl
    exact checked_alike_guard _ _ fun hx => unit.isNaN_ofRadians (hE.asin x hx)
  | cos =>
    obtain ⟨x, rfl⟩ := hone rfl
    exact checked_alike_guard _ _ fun hx => unit.isNaN_ofRadians (hE.acos x hx)
  | tan =>
    obtain ⟨x, rfl⟩ := hone rfl
    exact checked_alike _ _ [x] _
  | sec => exact (hf.1 rfl).elim
  | cosec => exact (hf.2.1 rfl).elim
  | cot => exact (hf.2.2 rfl).elim
  | _ => exact .refl .same _

theorem imitates_arc (hE : E.RefusesBeyondOne) (unit : AngleUnit) {token : Token}
    (ht : token ≠ .function .sec ∧ token ≠ .function .cosec ∧ token ≠ .function .cot) :
    Imitates Alike env (Mode.context ⟨unit, true⟩ E) (Mode.context ⟨unit, true⟩ E)
      token token.arc := by
  cases token with
  | function f =>
    refine imitates_function .same f.arity_arc fun arguments hl => perform_arc hE unit hl ?_
    simpa using ht
  | number value => exact .refl .same _
  | unknown => exact .refl .same _
  | operator op => exact .refl .same _

/-- In the inverse mode, without secants, cosecants and cotangents, tokens come to the same value as
those with the inverse functions in their place, or both fail at the same token and for the same
reason, up to the name of the function that refuses its argument. -/
theorem endsAlike_arc (hE : E.RefusesBeyondOne) (unit : AngleUnit) (env : Environment)
    {tokens : List Token} (hsec : .function .sec ∉ tokens) (hcosec : .function .cosec ∉ tokens)
    (hcot : .function .cot ∉ tokens) :
    EndsAlike env (Mode.context ⟨unit, true⟩ E) (Mode.context ⟨unit, true⟩ E)
      tokens (tokens.map Token.arc) := by
  refine endsAlike_map fun token hm => imitates_arc hE unit ⟨?_, ?_, ?_⟩
  · rintro rfl
    exact hsec hm
  · rintro rfl
    exact hcosec hm
  · rintro rfl
    exact hcot hm

/-- No angle has the sine 2, which the two ways to ask for the angle refuse under different names;
a NaN that is given passes. -/
theorem endsAlike_arc_two :
    let E := Elementary.arcsNearZero
    let ctx := Mode.context ⟨.degrees, true⟩ E
    let tokens : List Token := [.unknown, .function .cos, .number 2, .function .sin,
      .operator (.binary .plus)]
    E.RefusesBeyondOne ∧ .function .sec ∉ tokens ∧ .function .cosec ∉ tokens ∧
      .function .cot ∉ tokens ∧
      EndsAlike (.constant Binary64.nan) ctx ctx tokens (tokens.map Token.arc) ∧
      value (.constant Binary64.nan) ctx tokens = .error (.mathError "sin") ∧
      value (.constant Binary64.nan) ctx (tokens.map Token.arc) = .error (.mathError "asin") ∧
      FailsAt (.constant Binary64.nan) ctx (tokens.map Token.arc) 3 := by
  refine ⟨Elementary.refusesBeyondOne_arcsNearZero, by decide, by decide, by decide,
    endsAlike_arc Elementary.refusesBeyondOne_arcsNearZero .degrees _ (by decide) (by decide)
      (by decide), by decide +kernel, by decide +kernel, ⟨_, rfl⟩, ⟨_, rfl⟩⟩

end Evaluation

end Calculator
