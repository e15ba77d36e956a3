import Calculator.Proofs.Search
import Calculator.Proofs.SpecialValues
import Calculator.Solution
import Calculator.Builtin.Meaning

/-!
# Slopes that overflow

A slope that overflows makes the step of Newton's method a zero, so that the search ends where it
is, whatever the value there. Any other search that ends has measured with finite numbers.
-/

namespace Calculator.Root

open Binary64

variable {m : Measure} {x r : Float}

/-- The iteration measured with finite numbers, and its step leads to `r`. -/
structure Measure.NewtonStep (m : Measure) (x r : Float) : Prop where
  ahead : m.ahead.isFinite = true
  slope : m.slope.isFinite = true
  converges : m.Converges x
  result : r = roundToPlaces (m.next x)

theorem not_isFlat_of_isInf (h : m.slope.isInf = true) : ¬ m.IsFlat := by
  intro hflat
  obtain ⟨s, hs⟩ := exists_infinity h
  have hfin := isFinite_of_abs_lt hflat
  rw [isFinite_of_infinity hs] at hfin
  cases hfin

theorem abs_lt_tolerance_of_isZero (h : IsZero x) : x.abs < tolerance := by
  obtain ⟨s, rfl⟩ := h.eq_pack
  cases s <;> decide +kernel

theorem roundToPlaces_of_isZero (h : IsZero x) : roundToPlaces x = 0 := by
  obtain ⟨s, rfl⟩ := h.eq_pack
  cases s <;> decide +kernel

/-- The place that the search goes to when the slope overflows is the one where it is. -/
theorem next_of_isInf (h : m.slope.isInf = true) (hv : m.value.isFinite = true) :
    m.next x = x ∨ IsZero x ∧ IsZero (m.next x) := by
  rw [Measure.next_of_steep (not_isFlat_of_isInf h)]
  exact sub_of_isZero x (isZero_div hv h)

/-- An infinite slope ends the search where it is. -/
theorem converges_of_isInf (h : m.slope.isInf = true) (hv : m.value.isFinite = true)
    (hx : x.isFinite = true) :
    m.Converges x ∧ roundToPlaces (m.next x) = roundToPlaces x := by
  obtain hn | ⟨hzero, hn⟩ := next_of_isInf (x := x) h hv
  · rw [hn]
    refine ⟨⟨not_isFlat_of_isInf h, ?_⟩, rfl⟩
    rw [hn]
    exact abs_lt_tolerance_of_isZero (isZero_sub_self hx)
  · refine ⟨⟨not_isFlat_of_isInf h, ?_⟩, ?_⟩
    · obtain hsub | ⟨-, hsub⟩ := sub_of_isZero (m.next x) hzero
      · rw [hsub]
        exact abs_lt_tolerance_of_isZero hn
      · exact abs_lt_tolerance_of_isZero hsub
    · rw [roundToPlaces_of_isZero hn, roundToPlaces_of_isZero hzero]

/-- A step that ends the search begins and ends at a finite place with a finite value. -/
theorem Measure.Converges.isFinite (h : m.Converges x) :
    x.isFinite = true ∧ m.value.isFinite = true ∧ m.slope.isNaN = false := by
  obtain ⟨hnext, hx⟩ := isFinite_of_sub (isFinite_of_abs_lt h.short)
  rw [Measure.next_of_steep h.steep] at hnext
  exact ⟨hx, isFinite_of_div (isFinite_of_sub hnext).2⟩

/-- How a step can end the search: with finite numbers, or because the slope overflows. -/
theorem converges_iff :
    m.Converges x ∧ r = roundToPlaces (m.next x) ↔
      x.isFinite = true ∧ m.value.isFinite = true ∧
        (m.NewtonStep x r ∨ m.slope.isInf = true ∧ r = roundToPlaces x) := by
  constructor
  · rintro ⟨hc, hr⟩
    obtain ⟨hx, hv, hn⟩ := hc.isFinite
    refine ⟨hx, hv, ?_⟩
    by_cases hs : m.slope.isFinite = true
    · have hahead := (isFinite_of_sub (isFinite_of_div hs).1).1
      exact .inl ⟨hahead, hs, hc, hr⟩
    · have hinf := isInf_of_isFinite (Bool.eq_false_iff.mpr hs) hn
      exact .inr ⟨hinf, hr.trans (converges_of_isInf hinf hv hx).2⟩
  · rintro ⟨hx, hv, hstep | ⟨hinf, hr⟩⟩
    · exact ⟨hstep.converges, hstep.result⟩
    · obtain ⟨hc, hround⟩ := converges_of_isInf hinf hv hx
      exact ⟨hc, hr.trans hround.symm⟩

end Calculator.Root

namespace Calculator

open Root Binary64

/-- A search finds a root exactly if the first iteration with a short step, if any, begins at a
finite place with a finite value, and there either takes a step of Newton's method with finite
numbers, or meets a slope that overflows. In that case the place itself is reported. -/
theorem findRoot_eq_ok_iff (ctx : Context) (expression : Expression) (r : Float) :
    (expression.findRoot ctx).outcome = .ok r ↔
      ∃ k < maxIterations, ∃ x m, Measures (expression.evaluateAt ctx) initialGuess k x m ∧
        (∀ j < k, ¬ ConvergesAt (expression.evaluateAt ctx) initialGuess j) ∧
        x.isFinite = true ∧ m.value.isFinite = true ∧
        (m.NewtonStep x r ∨ m.slope.isInf = true ∧ r = roundToPlaces x) := by
  have hsearch : (expression.findRoot ctx).outcome = .ok r ↔
      ∃ k < maxIterations, StopsFirst (expression.evaluateAt ctx) initialGuess k (.ok r) :=
    searchFrom_eq_iff nofun
  refine hsearch.trans (exists_congr fun k => and_congr_right' (stopsFirst_ok_iff.trans ?_))
  refine exists_congr fun x => exists_congr fun m => and_congr_right' ?_
  rw [← converges_iff]
  tauto

/-- The line `170! · 24.7703 · x` is finite at one and overflows just after it. The search reports
one, though the value there is far from zero. -/
theorem findRoot_overflow :
    ∃ expression, Expression.ofText "170!*24.7703*x" = .ok expression ∧
      (expression.findRoot ({} : Mode).context).outcome = .ok 1 ∧
      ∃ m, Measures (expression.evaluateAt ({} : Mode).context) initialGuess 0 1 m ∧
        m.Converges 1 ∧ 1e308 < m.value ∧ m.value.isFinite = true ∧
        m.ahead.isFinite = false ∧ m.slope.isFinite = false := by
  let line : Expression := ⟨[.number 170, .operator (.unary .factorial), .number 24.7703,
    .operator (.binary .times), .unknown, .operator (.binary .times)]⟩
  let m : Measure := ⟨.ofBits 9218868389554735137, infinity⟩
  have hm : line.evaluateAt ({} : Mode).context 1 = .ok m.value ∧
      line.evaluateAt ({} : Mode).context (1 + difference) = .ok m.ahead := by decide +kernel
  have hinf : m.slope.isInf = true := by decide +kernel
  have hfin : m.value.isFinite = true := by decide +kernel
  obtain ⟨hc, hround⟩ := converges_of_isInf (x := 1) hinf hfin (by decide +kernel)
  have hmeasure := measure_of_ok hm.1 hm.2
  refine ⟨line, by decide +kernel, ?_, m, ⟨rfl, hmeasure⟩, hc, by decide +kernel, hfin,
    by decide +kernel, by decide +kernel⟩
  have hone : roundToPlaces 1 = 1 := by decide +kernel
  have hsearch : (line.findRoot ({} : Mode).context).outcome = .ok (roundToPlaces (m.next 1)) :=
    congrArg Report.outcome (searchFrom_of_converges hmeasure hc 0 99)
  rw [hsearch, hround, hone]

end Calculator
