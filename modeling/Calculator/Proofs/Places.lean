import Calculator.Proofs.Budget

/-!
# Where the places of a range lie

A place is the start and a multiple of the step, and both are rounded. Before the last step there is
more room up to the stop than rounding can take, so all places but the last are finite. The last
one can lie beyond the finite doubles, if the stop is close enough to the largest of them. Nothing
holds the step to be finite: if it is infinity, the only place is NaN.
-/

namespace Calculator

namespace Curve

namespace Range

open Binary64
open Float.Model (UnpackedFloat)
open Float.Model.UnpackedFloat

variable {range : Range} {i k : Nat} {r : ℚ}

/-- The distance of a place from the start is rounded to the nearest double. -/
theorem nearest_distance (h : range.Admitted) (hs : range.step.isFinite = true) (hi : i < 2 ^ 53) :
    Nearest (i * value range.step) (.ofNat i * range.step) := by
  obtain ⟨hmag, hv⟩ := value_ofNat hi
  have hmul := hmag.nearest_mul (h.isMagnitude_step hs).1
  rwa [hv] at hmul

/-- A representable number that the exact distance after `k` steps does not exceed, and that does
not lead beyond the finite doubles. -/
structure Confines (range : Range) (k : Nat) (r : ℚ) : Prop where
  representable : Representable r
  le : k * value range.step ≤ r
  lt : r < 2 ^ 1024 - 2 ^ 970
  sum_lt : value range.start + r < 2 ^ 1024 - 2 ^ 970

theorem Confines.isFinite_place (hr : range.Confines i r) (h : range.Admitted)
    (hs : range.step.isFinite = true) (hi : i < 2 ^ 53) : (range.place i).isFinite = true := by
  have hnear := nearest_distance h hs hi
  have hfin := hnear.finite.mpr (hr.le.trans_lt hr.lt)
  have hupper := hnear.value_le hfin hr.representable hr.lt hr.le
  have hlower := IsMagnitude.value_nonneg ⟨hfin, hnear.unsigned⟩
  have hstart := (abs_lt.mp (abs_value_lt h.start)).1
  have hsum := hr.sum_lt
  rw [place, isFinite_add_iff h.start hfin, abs_lt]
  generalize (2 : ℚ) ^ 1024 - 2 ^ 970 = bound at *
  constructor <;> linarith

/-- With a finite step a place that is not finite is infinity. -/
theorem place_eq_infinity (h : range.Admitted) (hs : range.step.isFinite = true) (hi : i < 2 ^ 53)
    (hx : (range.place i).isFinite = false) : range.place i = Binary64.infinity := by
  refine eq_infinity ?_
  obtain hmag | hinf := magnitude_or_infinity (nearest_distance h hs hi).unsigned
  · exact IsMagnitude.add_eq_infinity h.start hmag hx
  · have hadd : unpack (range.place i) =
        unpack (pack (.add .binary64 (unpack range.start) (unpack (.ofNat i * range.step)))) := rfl
    rw [hadd, hinf, unpacked_add_infinity (u := unpack range.start) h.start]
    exact unpack_pack_infinity .positive

/-! ## Places after finite steps -/

/-- A range with a finite step and more than one place: how its width and the number of its steps
are rounded. -/
structure Extends (range : Range) : Prop where
  difference : Nearest (value range.stop - value range.start) (range.stop - range.start)
  width : IsMagnitude (range.stop - range.start)
  quotient : Nearest (value (range.stop - range.start) / value range.step)
    ((range.stop - range.start) / range.step)
  magnitude : IsMagnitude ((range.stop - range.start) / range.step)
  count : range.count = ⌊value ((range.stop - range.start) / range.step)⌋₊ + 1
  few : range.count ≤ maxSamples

theorem Admitted.extends (h : range.Admitted) (hs : range.step.isFinite = true)
    (hc : 1 < range.count) : range.Extends := by
  obtain hzero | ⟨hdifference, hwidth, hquotient, hmagnitude⟩ := h.nearest_quotient hs
  · -- without a width there is only one place
    rw [h.count_eq, hzero.value_eq.2, Nat.floor_zero] at hc
    exact absurd hc (lt_irrefl 1)
  · exact ⟨hdifference, hwidth, hquotient, hmagnitude, h.count_eq, h.count_le⟩

namespace Extends

/-- The steps fit into the width, the last one at least by half. -/
theorem half_step_le (h : range.Extends) (hstep : 0 < value range.step) (hk : k + 1 < range.count) :
    (k + 1 / 2) * value range.step ≤ value (range.stop - range.start) := by
  have hfew := h.few
  simp only [maxSamples] at hfew
  have hcount := h.count
  have hfloor := Nat.floor_le h.magnitude.value_nonneg
  have hk' : ((k + 1 : Nat) : ℚ) ≤ ⌊value ((range.stop - range.start) / range.step)⌋₊ := by
    exact_mod_cast (by omega : k + 1 ≤ _)
  rw [← le_div_iff₀ hstep]
  by_contra hlt
  -- a quotient below the middle of two numbers of steps is not rounded to the greater one
  have hmiddle : Representable (k + 1 / 2) := by
    have hscaled := representable_scaled (m := 2 * k + 1) (e := -1) (by omega) (by norm_num)
    have hv : ((2 * k + 1 : Nat) : ℚ) * 2 ^ (-1 : Int) = k + 1 / 2 := by
      push_cast
      rw [zpow_neg_one]
      ring
    rwa [hv] at hscaled
  have hbound : (k : ℚ) + 1 / 2 < 2 ^ 1024 - 2 ^ 970 := by
    obtain ⟨hmag, hv⟩ := value_ofNat (n := k + 1) (by omega)
    refine lt_of_le_of_lt ?_ hmag.value_lt
    rw [hv]
    push_cast
    linarith
  have hle := h.quotient.value_le h.magnitude.finite hmiddle hbound (not_le.mp hlt).le
  push_cast at hk'
  linarith

/-- The width is less than `maxSamples` steps. -/
theorem width_lt (h : range.Extends) (hstep : 0 < value range.step) :
    value (range.stop - range.start) < maxSamples * value range.step := by
  rw [← div_lt_iff₀ hstep]
  by_contra hle
  have hge := h.quotient.le_value h.magnitude.finite
    (representable_natCast (m := maxSamples) (by norm_num [maxSamples])) (not_lt.mp hle)
  have hlt := Nat.lt_floor_add_one (value ((range.stop - range.start) / range.step))
  have hcount : ((range.count : Nat) : ℚ) ≤ maxSamples := by exact_mod_cast h.few
  rw [h.count] at hcount
  push_cast at hcount
  linarith

/-- Before the last step there is room for one unit in the last place of the width, which is more
than the width can have been rounded up. -/
theorem exists_confines (h : range.Extends) (hr : range.Admitted) (hstep : 0 < value range.step)
    (hk : k + 1 < range.count) : ∃ r, range.Confines k r := by
  have hhalf := h.half_step_le hstep hk
  have hwidth := h.width_lt hstep
  have hbound := h.width.value_lt
  obtain ⟨m, e, hc, -, -, hv⟩ := h.width.exists_positive
  have hunit := two_zpow_pos e
  obtain hm | rfl := hc.leading
  · obtain ⟨hrep, hround⟩ := h.difference.sub_unit h.width.finite hc hv (by omega)
    refine ⟨value (range.stop - range.start) - 2 ^ e, hrep, ?_, ?_, ?_⟩
    · have hlarge : ((2 ^ 52 : Nat) : ℚ) * 2 ^ e ≤ value (range.stop - range.start) := by
        rw [hv]
        exact mul_le_mul_of_nonneg_right (by exact_mod_cast hm) hunit.le
      simp only [maxSamples] at hwidth
      push_cast at hlarge hwidth
      linarith
    · exact (sub_lt_self _ hunit).trans hbound
    · refine (lt_sub_iff_add_lt'.mp hround).trans ?_
      exact (abs_lt.mp (abs_value_lt hr.stop)).2
  · -- a width this small does not lead beyond the bound
    refine ⟨_, h.width.representable, by linarith, hbound, ?_⟩
    have hsmall : value (range.stop - range.start) < 2 ^ 970 := by
      have hle : (2 : ℚ) ^ (-1074 : Int) ≤ 1 := zpow_le_one_of_nonpos₀ (by norm_num) (by norm_num)
      have hm : (m : ℚ) < 2 ^ 53 := by exact_mod_cast hc.lt
      calc value (range.stop - range.start) = m * 2 ^ (-1074 : Int) := hv
        _ ≤ m := mul_le_of_le_one_right (Nat.cast_nonneg m) hle
        _ < 2 ^ 53 := hm
        _ ≤ 2 ^ 970 := pow_le_pow_right₀ one_le_two (by norm_num)
    have hstart := (abs_le.mp (abs_value_le hr.start)).2
    generalize (2 : ℚ) ^ 970 = p at *
    generalize (2 : ℚ) ^ 1024 = b at *
    linarith

theorem three_quarters_lt : (2 : ℚ) ^ 1022 + 2 * 2 ^ 1022 < 2 ^ 1024 - 2 ^ 970 := by
  have hsmall : (2 : ℚ) ^ 970 < 2 ^ 1022 := pow_lt_pow_right₀ one_lt_two (by norm_num)
  have hbound : (2 : ℚ) ^ 1024 = 4 * 2 ^ 1022 := by
    rw [pow_add 2 2 1022]
    norm_num
  rw [hbound]
  generalize (2 : ℚ) ^ 970 = small at *
  generalize (2 : ℚ) ^ 1022 = quarter at *
  linarith

/-- No step leads beyond the bound, if the stop and the width are no more than a quarter of it. -/
theorem exists_confines_of_le (h : range.Extends) (hr : range.Admitted)
    (hstep : 0 < value range.step) (hk : k < range.count) (hstop : value range.stop ≤ 2 ^ 1022)
    (hwidth : value range.stop - value range.start ≤ 2 ^ 1022) : ∃ r, range.Confines k r := by
  obtain ⟨hone, htwo⟩ : Representable (2 ^ 1022) ∧ Representable (2 * 2 ^ 1022) :=
    ⟨by simpa using representable_mul_two_pow (m := 1) (by norm_num) 1022,
      by simpa using representable_mul_two_pow (m := 2) (by norm_num) 1022⟩
  have hroom := three_quarters_lt
  have hpos : (0 : ℚ) < 2 ^ 1022 := pow_pos two_pos 1022
  have hround := fun hlt => h.difference.value_le h.width.finite hone hlt hwidth
  have hforward := hr.value_le
  refine ⟨2 * 2 ^ 1022, htwo, ?_, ?_, ?_⟩ <;>
    generalize (2 : ℚ) ^ 1024 - 2 ^ 970 = bound at * <;>
    generalize (2 : ℚ) ^ 1022 = quarter at *
  · cases k with
    | zero =>
      rw [Nat.cast_zero, zero_mul]
      linarith
    | succ j =>
      have hhalf := h.half_step_le hstep hk
      have hle := hround (by linarith)
      -- the next step is no wider than those before it and the half that fits in any case
      have hj : 0 ≤ (j : ℚ) * value range.step := by positivity
      push_cast
      linarith
  · linarith
  · linarith

end Extends

theorem isFinite_place_zero (h : range.Admitted) (hs : range.step.isFinite = true) :
    (range.place 0).isFinite = true := by
  have hzero : Representable 0 := by
    have hcast := representable_natCast (m := 0) (by norm_num)
    rwa [Nat.cast_zero] at hcast
  have hstart := abs_value_lt h.start
  have hr : range.Confines 0 0 := by
    refine ⟨hzero, by simp, (abs_nonneg _).trans_lt hstart, ?_⟩
    rw [add_zero]
    exact (abs_lt.mp hstart).2
  exact hr.isFinite_place h hs (by norm_num)

/-- A place after the start that lies beyond the finite doubles. It is the last one, and the range
goes far. -/
structure Overshoots (range : Range) (i : Nat) : Prop where
  place : range.place i = Binary64.infinity
  later : 0 < i
  last : i + 1 = range.count
  far : 2 ^ 1022 < value range.stop ∨ 2 ^ 1022 < value range.stop - value range.start

/-- With a finite step the places are finite, but for a last one beyond the finite doubles. -/
theorem isFinite_or_overshoots (h : range.Admitted) (hs : range.step.isFinite = true)
    (hi : i < range.count) : (range.place i).isFinite = true ∨ range.Overshoots i := by
  obtain rfl | hpos := Nat.eq_zero_or_pos i
  · exact .inl (isFinite_place_zero h hs)
  have hextends := h.extends hs (by omega)
  have hstep := (h.isMagnitude_step hs).2
  have hsmall : i < 2 ^ 53 := by
    have hfew := hextends.few
    simp only [maxSamples] at hfew
    omega
  refine or_iff_not_imp_left.mpr fun hx => ?_
  refine ⟨place_eq_infinity h hs hsmall (Bool.eq_false_of_not_eq_true hx), hpos, ?_, ?_⟩
  · by_contra hlast
    obtain ⟨r, hr⟩ := hextends.exists_confines h hstep (k := i) (by omega)
    exact hx (hr.isFinite_place h hs hsmall)
  · by_contra hfar
    obtain ⟨hstop, hwidth⟩ := not_or.mp hfar
    obtain ⟨r, hr⟩ :=
      hextends.exists_confines_of_le h hstep hi (not_lt.mp hstop) (not_lt.mp hwidth)
    exact hx (hr.isFinite_place h hs hsmall)

/-! ## The place of an infinite step -/

theorem Admitted.count_eq_one (h : range.Admitted) (hs : range.step.isFinite = false) :
    range.count = 1 := by
  rw [h.count_eq, (h.isZero_quotient hs).value_eq.2, Nat.floor_zero]

/-- Zero times infinity is NaN, and stays so when it is added to the start. -/
theorem Admitted.isNaN_place (h : range.Admitted) (hs : range.step.isFinite = false) :
    (range.place 0).isNaN = true := by
  have hdistance : Float.ofNat 0 * range.step =
      pack (.mul .binary64 (.zero .positive) (unpack range.step)) := rfl
  have hplace : range.place 0 =
      pack (.add .binary64 (unpack range.start) (unpack (Float.ofNat 0 * range.step))) := rfl
  have hnan : unpack (pack (.mul .binary64 (.zero .positive) (.infinity .positive))) =
      .notANumber := rfl
  rw [hplace, hdistance, h.step_eq_infinity hs, hnan, unpacked_add_nan]
  rfl

end Range

/-! ## Points of a segment -/

variable {range : Range} {point : Point} {f : Float → Except EvaluationError Float}

theorem Sample.point?_eq_some {sample : Sample} (h : sample.point? = some point) :
    point.x = sample.x ∧ point.y.isFinite = true := by
  rw [Sample.point?] at h
  cases hr : sample.result with
  | error e => simp [hr] at h
  | ok y =>
    simp only [hr, Option.ite_none_right_eq_some, Option.some.injEq] at h
    obtain ⟨hy, rfl⟩ := h
    exact ⟨rfl, hy⟩

/-- A point of a segment was sampled at a place of the range. -/
theorem exists_place {segment : List Point} (hs : segment ∈ (sample f range).segments)
    (hp : point ∈ segment) :
    range.Admitted ∧ point.y.isFinite = true ∧ ∃ i < range.count, point.x = range.place i := by
  have hmem : point ∈ (sample f range).segments.flatten := List.mem_flatten.mpr ⟨_, hs, hp⟩
  rw [flatten_segments] at hmem
  obtain ⟨taken, htaken, hpoint⟩ := List.mem_filterMap.mp hmem
  obtain ⟨hx, hy⟩ := Sample.point?_eq_some hpoint
  by_cases h : range.Admitted
  · rw [samples_of_admitted h] at htaken
    obtain ⟨i, hi, rfl⟩ := List.mem_map.mp htaken
    exact ⟨h, hy, i, List.mem_range.mp hi, hx⟩
  · rw [samples_of_not_admitted h] at htaken
    cases htaken

end Curve

open Curve

/-- The points of a segment have finite values, and lie at places of the range. With a finite step
such a place is finite too, unless it is the last one of a range that goes so far that this place is
infinity. With an infinite step there is only one place, which is NaN. -/
theorem sample_point_finite (ctx : Context) (expression : Expression) (range : Range)
    (segment : List Point) (point : Point)
    (hs : segment ∈ (expression.sample ctx range).segments) (hp : point ∈ segment) :
    point.y.isFinite = true ∧ ∃ i < range.count, point.x = range.place i ∧
      (range.step.isFinite = true → point.x.isFinite = true ∨ range.Overshoots i) ∧
      (range.step.isFinite = false → point.x.isNaN = true ∧ range.count = 1) := by
  obtain ⟨h, hy, i, hi, hx⟩ := exists_place hs hp
  refine ⟨hy, i, hi, hx, ?_, ?_⟩
  · intro hstep
    rw [hx]
    exact Range.isFinite_or_overshoots h hstep hi
  · intro hstep
    have hcount := h.count_eq_one hstep
    obtain rfl : i = 0 := by omega
    rw [hx]
    exact ⟨h.isNaN_place hstep, hcount⟩

/-- The statement above for the point in the middle of the line `x` from 0 to 1 in steps of a
half. -/
theorem sample_point_finite_line :
    let line : Expression := ⟨[.unknown]⟩
    let range : Range := ⟨0, 1, 0.5⟩
    let segment : List Point := [⟨0, 0⟩, ⟨0.5, 0.5⟩, ⟨1, 1⟩]
    let point : Point := ⟨0.5, 0.5⟩
    (segment ∈ (line.sample (Mode.context {}) range).segments ∧ point ∈ segment) ∧
      point.y.isFinite = true ∧ ∃ i < range.count, point.x = range.place i ∧
        (range.step.isFinite = true → point.x.isFinite = true ∨ range.Overshoots i) ∧
        (range.step.isFinite = false → point.x.isNaN = true ∧ range.count = 1) := by
  intro line range segment point
  have hs : segment ∈ (line.sample (Mode.context {}) range).segments := by decide +kernel
  have hp : point ∈ segment := List.mem_cons_of_mem _ List.mem_cons_self
  exact ⟨⟨hs, hp⟩, sample_point_finite (Mode.context {}) line range segment point hs hp⟩

/-- An infinite step has a point at NaN, though start and stop are finite and the value is. And in
three steps of a third of the largest finite double the last point lies at infinity. -/
theorem sample_point_not_finite :
    let expression : Expression := ⟨[.number 5]⟩
    let endless : Range := ⟨0, 1, Binary64.infinity⟩
    let far : Range := ⟨0, 1.7976931348623157e308, 5.992310449541053e307⟩
    Expression.ofText "5" = .ok expression ∧
      (expression.sample (Mode.context {}) endless).segments = [[⟨Binary64.nan, 5⟩]] ∧
      Binary64.nan.isFinite = false ∧
      (expression.sample (Mode.context {}) far).segments =
        [[⟨0, 5⟩, ⟨5.992310449541053e307, 5⟩, ⟨1.1984620899082105e308, 5⟩,
          ⟨Binary64.infinity, 5⟩]] ∧
      Binary64.infinity.isFinite = false := by
  decide +kernel

end Calculator
