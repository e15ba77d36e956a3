import Calculator.Proofs.Naturals
import Calculator.Proofs.Segments

/-!
# The budget of a range

A range is sampled only if it has fewer than `maxSamples` steps. Neither NaN nor infinity is less
than that, so the width over the step is finite then, and as the range goes forward it is a zero or
positive. Its floor is a natural number that a machine word holds, and so is the number of places.
-/

namespace Calculator

namespace Curve

namespace Range

open Binary64
open Float.Model (UnpackedFloat)
open Float.Model.UnpackedFloat

variable {range : Range}

theorem Admitted.value_le (h : range.Admitted) : value range.start ≤ value range.stop :=
  not_lt.mp (mt (lt_iff_value h.stop h.start).mpr h.forward)

theorem Admitted.isMagnitude_step (h : range.Admitted) (hs : range.step.isFinite = true) :
    IsMagnitude range.step ∧ 0 < value range.step := by
  have hpos : 0 < value range.step := by
    rw [← value_zero]
    exact (lt_iff_value (by decide +kernel) hs).mp h.positive
  exact ⟨isMagnitude_of_pos hs hpos, hpos⟩

theorem Admitted.step_eq_infinity (h : range.Admitted) (hs : range.step.isFinite = false) :
    unpack range.step = .infinity .positive := by
  have hlt := lt_iff.mp h.positive
  have hzero : unpack 0 = .zero .positive := rfl
  rw [hzero] at hlt
  change (unpack range.step).isFinite = false at hs
  cases hu : unpack range.step with
  | infinity s =>
    rw [hu] at hlt
    cases s with
    | positive => rfl
    | negative => cases hlt
  | notANumber =>
    rw [hu] at hlt
    cases hlt
  | _ =>
    rw [hu] at hs
    cases hs

/-! ## The width over the step -/

/-- A quotient that is not finite is its own floor, so it counts as few steps as it is. -/
theorem Admitted.quotient_lt (h : range.Admitted)
    (hq : ((range.stop - range.start) / range.step).isFinite = false) :
    (unpack ((range.stop - range.start) / range.step)).lt (unpack (.ofNat maxSamples)) = true := by
  have hfloor : range.steps = (range.stop - range.start) / range.step := by
    rw [steps]
    generalize (range.stop - range.start) / range.step = quotient at hq
    change (unpack quotient).isFinite = false at hq
    cases hu : unpack quotient with
    | finite s m e hm =>
      rw [hu] at hq
      cases hq
    | _ => simp only [floor, roundBy, hu]
  have hlt := lt_iff.mp h.few
  rwa [hfloor] at hlt

theorem Admitted.quotient_ne_infinity (h : range.Admitted) :
    unpack ((range.stop - range.start) / range.step) ≠ .infinity .positive := by
  intro hq
  have hlt := h.quotient_lt (congrArg UnpackedFloat.isFinite hq)
  rw [hq, infinity_not_lt] at hlt
  cases hlt

/-- No width has room for an infinite step. -/
theorem Admitted.isZero_quotient (h : range.Admitted) (hs : range.step.isFinite = false) :
    IsZero ((range.stop - range.start) / range.step) := by
  have hstep := h.step_eq_infinity hs
  by_cases hw : (range.stop - range.start).isFinite = true
  · exact isZero_div hw (congrArg UnpackedFloat.isInf hstep)
  · have hq : unpack ((range.stop - range.start) / range.step) = .notANumber := by
      have hdiv : (range.stop - range.start) / range.step =
          pack (.div .binary64 (unpack (range.stop - range.start)) (unpack range.step)) := rfl
      change ¬ (unpack (range.stop - range.start)).isFinite = true at hw
      rw [hdiv, hstep]
      cases hu : unpack (range.stop - range.start) with
      | notANumber => rfl
      | infinity s => cases s <;> rfl
      | _ =>
        rw [hu] at hw
        exact absurd rfl hw
    have hlt := h.quotient_lt (congrArg UnpackedFloat.isFinite hq)
    rw [hq] at hlt
    cases hlt

/-- With a finite step the width and its quotient are finite and rounded to the nearest doubles, if
there is a width at all. -/
theorem Admitted.nearest_quotient (h : range.Admitted) (hs : range.step.isFinite = true) :
    IsZero ((range.stop - range.start) / range.step) ∨
      Nearest (value range.stop - value range.start) (range.stop - range.start) ∧
      IsMagnitude (range.stop - range.start) ∧
      Nearest (value (range.stop - range.start) / value range.step)
        ((range.stop - range.start) / range.step) ∧
      IsMagnitude ((range.stop - range.start) / range.step) := by
  obtain ⟨hstep, hpos⟩ := h.isMagnitude_step hs
  obtain hlt | heq := h.value_le.lt_or_eq
  · have hdifference := Binary64.nearest_sub h.stop h.start (.inl (sub_pos.mpr hlt))
    obtain hwidth | hinf := magnitude_or_infinity hdifference.unsigned
    · have hquotient := hwidth.nearest_div hstep hpos
      have hmagnitude := (magnitude_or_infinity hquotient.unsigned).resolve_right
        h.quotient_ne_infinity
      exact .inr ⟨hdifference, hwidth, hquotient, hmagnitude⟩
    · -- an infinite width is too many steps
      exact absurd (hstep.infinity_div hinf hpos) h.quotient_ne_infinity
  · have hzero : IsZero (range.stop - range.start) := by
      rw [sub_eq]
      refine isZero_add h.stop ((isFinite_neg _).trans h.start) ?_
      rw [value_neg, heq, add_neg_cancel]
    obtain ⟨s, hw⟩ := hzero
    obtain ⟨m, e, hm, hu⟩ := hstep.exists_finite hpos
    have hdiv : (range.stop - range.start) / range.step =
        pack (.div .binary64 (unpack (range.stop - range.start)) (unpack range.step)) := rfl
    rw [hdiv, hw, hu]
    exact .inl (isZero_pack _)

/-! ## The number of steps -/

/-- The number of steps is a natural number, though zero may come with a sign. -/
theorem Admitted.standsFor_steps (h : range.Admitted) :
    StandsFor range.steps ⌊value ((range.stop - range.start) / range.step)⌋₊ := by
  refine standsFor_floor ?_
  by_cases hs : range.step.isFinite = true
  · exact (h.nearest_quotient hs).imp_right fun hnearest => hnearest.2.2.2
  · exact .inl (h.isZero_quotient (Bool.eq_false_of_not_eq_true hs))

theorem Admitted.count_eq (h : range.Admitted) :
    range.count = ⌊value ((range.stop - range.start) / range.step)⌋₊ + 1 :=
  congrArg (· + 1) h.standsFor_steps.toNat_eq

theorem Admitted.count_le (h : range.Admitted) : range.count ≤ maxSamples := by
  rw [h.count_eq]
  exact (h.standsFor_steps.lt_iff (standsFor_ofNat (by norm_num [maxSamples]))).mp h.few

/-- The number of steps as a machine word is exact, and one more does not wrap. -/
theorem Admitted.toUSize_steps (h : range.Admitted) :
    StandsFor range.steps range.steps.toUSize.toNat ∧
      (range.steps.toUSize + 1).toNat = range.count := by
  have hle := h.count_le
  rw [h.count_eq] at hle ⊢
  have hsize : maxSamples < USize.size :=
    (by decide : maxSamples < UInt32.size).trans_le UInt32.size_le_usizeSize
  have hword := h.standsFor_steps.toNat_toUSize (by omega)
  refine ⟨?_, ?_⟩
  · rw [hword]
    exact h.standsFor_steps
  · rw [USize.toNat_add, hword, USize.toNat_one, ← USize.size_eq_two_pow]
    exact Nat.mod_eq_of_lt (hle.trans_lt hsize)

end Range

variable {range : Range} {f : Float → Except EvaluationError Float}

theorem length_samples_of_admitted (h : range.Admitted) :
    (sample f range).samples.length = range.count := by
  rw [samples_of_admitted h, List.length_map, List.length_range]

theorem length_samples_le (f : Float → Except EvaluationError Float) (range : Range) :
    (sample f range).samples.length ≤ maxSamples := by
  by_cases h : range.Admitted
  · rw [length_samples_of_admitted h]
    exact h.count_le
  · rw [samples_of_not_admitted h]
    exact Nat.zero_le _

theorem length_segments_le (f : Float → Except EvaluationError Float) (range : Range) :
    (sample f range).segments.flatten.length ≤ (sample f range).samples.length := by
  rw [flatten_segments]
  exact List.length_filterMap_le _ _

end Curve

open Curve

/-- Whatever the ends and the step are, NaN and infinity among them, an expression is evaluated at
`maxSamples` places at most, and its segments have no more points than it was evaluated at places.
Where the number of steps becomes a machine word, it is an integer that is not negative and is less
than `maxSamples`. So the word stands for the same number, and one more is the number of places. -/
theorem sample_within_budget (ctx : Context) (expression : Expression) (range : Range) :
    let survey := expression.sample ctx range
    survey.samples.length ≤ maxSamples ∧
    survey.segments.flatten.length ≤ survey.samples.length ∧
    ∀ count, range.extent = .places count →
      Binary64.isIntegral range.steps = true ∧ 0 ≤ range.steps ∧
      range.steps < .ofNat maxSamples ∧
      Binary64.StandsFor range.steps range.steps.toUSize.toNat ∧
      (range.steps.toUSize + 1).toNat = count ∧ survey.samples.length = count := by
  refine ⟨length_samples_le _ range, length_segments_le _ range, fun count hcount => ?_⟩
  obtain ⟨h, rfl⟩ := Range.places_of_extent hcount
  obtain ⟨hword, hsucc⟩ := h.toUSize_steps
  exact ⟨h.standsFor_steps.isIntegral, h.standsFor_steps.nonneg, h.few, hword, hsucc,
    length_samples_of_admitted h⟩

/-- The statement above for a range that uses up the budget, in the least steps there are. -/
theorem sample_within_budget_least :
    let line : Expression := ⟨[.unknown]⟩
    let range : Range := ⟨0, .ofBits 999999, .ofBits 1⟩
    let survey := line.sample (Mode.context {}) range
    range.extent = .places maxSamples ∧ survey.segments.flatten.length ≤ survey.samples.length ∧
      Binary64.isIntegral range.steps = true ∧ 0 ≤ range.steps ∧
      (range.steps.toUSize + 1).toNat = maxSamples ∧ survey.samples.length = maxSamples := by
  intro line range survey
  have hextent : range.extent = .places maxSamples := by decide +kernel
  obtain ⟨-, hpoints, hsteps⟩ := sample_within_budget (Mode.context {}) line range
  obtain ⟨hintegral, hnonneg, -, -, hsucc, hlength⟩ := hsteps maxSamples hextent
  exact ⟨hextent, hpoints, hintegral, hnonneg, hsucc, hlength⟩

end Calculator
