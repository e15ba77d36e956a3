import Calculator.Proofs.Bounds
import Calculator.Proofs.Overflow

/-!
# Roots are finite

Large doubles absorb the difference over which slopes are measured, so that the curve is flat there.
A search therefore ends near a place that is not large, and rounding what it finds to nine decimal
places does not overflow.
-/

namespace Calculator.Binary64

open Float.Model (UnpackedFloat)
open Float.Model.UnpackedFloat

variable {m n : Nat} {e : Int} {x y : Float}

/-! ## Absorption -/

/-- From `2 ^ 53` on canonical numbers are even. -/
theorem Canonical.exists_even (h : Canonical m e) (hbig : (2 : ℚ) ^ 53 ≤ m * 2 ^ e) :
    ∃ j : Nat, (m : ℚ) * 2 ^ e = 2 * j := by
  have hlt : (m : ℚ) < 2 ^ 53 := by exact_mod_cast h.lt
  have he : 1 ≤ e := by
    by_contra hle
    have hone : (2 : ℚ) ^ e ≤ 1 := zpow_le_one_of_nonpos₀ one_le_two (by omega)
    have := mul_le_of_le_one_right (Nat.cast_nonneg (α := ℚ) m) hone
    linarith
  obtain ⟨k, rfl⟩ : ∃ k : Nat, e = k + 1 := ⟨(e - 1).toNat, by omega⟩
  refine ⟨m * 2 ^ k, ?_⟩
  rw [zpow_add_one₀ two_ne_zero, zpow_natCast]
  push_cast
  ring

/-- A sum with something less than one is the double itself, if that is large. -/
theorem add_eq_self (hx : x.isFinite = true) (hy : y.isFinite = true)
    (hbig : 2 ^ 54 ≤ |value x|) (hsmall : |value y| < 1) : x + y = x := by
  obtain ⟨s, m, e, hm, -, hux⟩ := exists_signed hx
  obtain ⟨t, n, f, hclosest, hsum, hpos, hneg⟩ := exists_closest_add hx hy
  have hv := value_of_signed hux
  have habs : |value x| = m * 2 ^ e := by rw [hv, abs_apply]
  have hy' := abs_lt.mp hsmall
  have hsign : t = s := by
    cases s with
    | positive =>
      rw [apply_positive] at hv
      exact hpos (.inl (by linarith))
    | negative =>
      rw [apply_negative] at hv
      exact hneg (by linarith)
  -- the sum is rounded to an even number that is less than two away
  have hnear : |(n : ℚ) * 2 ^ f - m * 2 ^ e| < 2 := by
    have hle := hclosest.le hm
    have hchange := abs_abs_sub_abs_le (value x) (value x + value y)
    rw [sub_add_cancel_left, abs_neg, habs] at hchange
    have htri := abs_sub_le ((n : ℚ) * 2 ^ f) |value x + value y| (m * 2 ^ e)
    rw [abs_sub_comm |value x + value y|] at htri
    linarith
  rw [habs] at hbig
  obtain ⟨i, hi⟩ := hm.exists_even (by linarith)
  obtain ⟨j, hj⟩ := hclosest.canonical.exists_even (by linarith [(abs_lt.mp hnear).1])
  have hij : j = i := by
    rw [hi, hj, ← mul_sub, abs_mul, abs_two] at hnear
    have hlt : |(j : ℤ) - i| < 1 := by
      have : |(j : ℚ) - i| < 1 := by linarith
      exact_mod_cast this
    have := Int.abs_lt_one_iff.mp hlt
    omega
  obtain ⟨rfl, rfl⟩ := hclosest.canonical.inj hm (by rw [hi, hj, hij])
  rw [hsum, hsign, ← hux, pack_unpack]

/-! ## Rounding to places -/

/-- What is not large is far below the bound of the finite doubles. -/
theorem hundred_bits_lt : (2 : ℚ) ^ 100 < 2 ^ 1024 - 2 ^ 970 := by
  have hle : (2 : ℚ) ^ 100 ≤ 2 ^ 970 := pow_le_pow_right₀ one_le_two (by norm_num)
  have hpos : (0 : ℚ) < 2 ^ 970 := pow_pos two_pos 970
  rw [pow_add 2 54 970]
  generalize (2 : ℚ) ^ 970 = p at *
  linarith

theorem isFinite_ofScaled (s : Sign) (hm : m ≤ 2 ^ 53) : (ofScaled s m 0).isFinite = true := by
  obtain ⟨n, f, hclosest, hround⟩ := exists_closest_ofScaled s m 0
  rw [hround, hclosest.isFinite_iff, zpow_zero, mul_one]
  have hle : (m : ℚ) ≤ 2 ^ 53 := by exact_mod_cast hm
  exact (hle.trans (by norm_num)).trans_lt hundred_bits_lt

theorem isFinite_round (hx : x.isFinite = true) : (round x).isFinite = true := by
  unfold round roundBy
  cases hu : unpack x with
  | finite s m e hm =>
    have hlt := (canonical_of_unpack hu).1.lt
    have hle := Nat.div_le_self m (1 <<< (-e).toNat)
    simp only
    split
    · exact hx
    · refine isFinite_ofScaled s ?_
      split_ifs <;> omega
  | _ => exact hx

end Calculator.Binary64

namespace Calculator.Root

open Binary64

variable {f : Float → Except EvaluationError Float} {m : Measure} {x : Float}

theorem isMagnitude_places : IsMagnitude 1e9 ∧ value 1e9 = 10 ^ 9 := by
  have hu : unpack 1e9 = signed .positive (10 ^ 9 * 2 ^ 23) (-23) := rfl
  refine ⟨⟨isFinite_of_signed hu, (isUnsigned_of_signed hu).mpr rfl⟩, ?_⟩
  rw [value_of_signed hu, apply_positive]
  norm_num

/-- A double is rounded to a finite one unless its billionfold overflows. -/
theorem isFinite_roundToPlaces (hx : (x * 1e9).isFinite = true) :
    (roundToPlaces x).isFinite = true := by
  obtain ⟨hplaces, hv⟩ := isMagnitude_places
  have hround := isFinite_round hx
  have hten : |(10 : ℚ) ^ 9| = 10 ^ 9 := abs_of_pos (by positivity)
  have hquotient : (round (x * 1e9) / 1e9).isFinite = true := by
    rw [isFinite_div_iff hround hplaces.finite (by norm_num [hv]), abs_div, hv, hten]
    calc |value (round (x * 1e9))| / 10 ^ 9 ≤ |value (round (x * 1e9))| :=
          div_le_self (abs_nonneg _) (by norm_num)
      _ < 2 ^ 1024 - 2 ^ 970 := abs_value_lt hround
  rw [roundToPlaces]
  by_cases hzero : round (x * 1e9) / 1e9 = -0
  · rw [hzero]
    decide +kernel
  · rwa [add_zero_of_ne hzero]

/-! ## Where a search ends -/

theorem isMagnitude_difference : IsMagnitude difference := ⟨by decide +kernel, rfl⟩

theorem value_difference_lt : |value difference| < 1 := by
  rw [abs_of_nonneg isMagnitude_difference.value_nonneg, ← value_one,
    ← lt_iff_value isMagnitude_difference.finite isMagnitude_one.finite]
  decide +kernel

/-- Without a change of the value the curve is flat. -/
theorem isFlat_of_eq (h : m.ahead = m.value) (hv : m.value.isFinite = true) : m.IsFlat := by
  obtain ⟨s, hs⟩ := (isZero_sub_self hv).eq_pack
  rw [Measure.IsFlat, Measure.slope, h, hs]
  cases s <;> decide +kernel

/-- Nothing converges where the difference for the slope is absorbed. -/
theorem abs_value_lt_of_converges (hm : measure f x = .ok m) (hc : m.Converges x) :
    |value x| < 2 ^ 54 := by
  obtain ⟨hx, hv, -⟩ := hc.isFinite
  by_contra hbig
  have habsorbed : x + difference = x :=
    add_eq_self hx isMagnitude_difference.finite (not_lt.mp hbig) value_difference_lt
  obtain ⟨hvalue, hahead⟩ := measure_eq_ok hm
  rw [habsorbed, hvalue] at hahead
  exact hc.steep (isFlat_of_eq (Except.ok.inj hahead).symm hv)

/-- The last step is shorter than one. -/
theorem abs_next_sub_lt_of_converges (hc : m.Converges x) : |value (m.next x) - value x| < 1 := by
  have hfinite := isFinite_of_abs_lt hc.short
  obtain ⟨hn, hx⟩ := isFinite_of_sub hfinite
  have hmagnitude := isMagnitude_abs hfinite
  by_contra hge
  have hone : Representable 1 := by exact_mod_cast representable_natCast (m := 1) (by norm_num)
  have hle := (nearest_abs_sub hn hx).le_value hmagnitude.finite hone (not_lt.mp hge)
  have hlt := (lt_iff_value hmagnitude.finite (by decide +kernel)).mp hc.short
  have htolerance : value tolerance ≤ value 1 :=
    (le_iff_value (by decide +kernel) isMagnitude_one.finite).mp (by decide +kernel)
  rw [value_one] at htolerance
  linarith

end Calculator.Root

namespace Calculator

open Root Binary64

/-- A root that is found is a finite number, and no negative zero. -/
theorem findRoot_isFinite {ctx : Context} {expression : Expression} {r : Float}
    (h : (expression.findRoot ctx).outcome = .ok r) : r.isFinite = true ∧ r ≠ -0 := by
  obtain ⟨k, -, hstop⟩ : ∃ k < maxIterations,
      StopsFirst (expression.evaluateAt ctx) initialGuess k (.ok r) :=
    (searchFrom_eq_iff (by nofun)).mp h
  obtain ⟨x, m, hm, hc, -, rfl⟩ := stopsFirst_ok_iff.mp hstop
  refine ⟨isFinite_roundToPlaces ?_, add_zero_ne _⟩
  have hn := (isFinite_of_sub (isFinite_of_abs_lt hc.short)).1
  have hplace := abs_value_lt_of_converges hm.measure hc
  have hstep := abs_next_sub_lt_of_converges hc
  have hnext : |value (m.next x)| ≤ 2 ^ 54 + 1 := by
    have := abs_sub_abs_le_abs_sub (value (m.next x)) (value x)
    linarith
  obtain ⟨hplaces, hv⟩ := isMagnitude_places
  rw [isFinite_mul_iff hn hplaces.finite, abs_mul, hv, abs_of_pos (by positivity : (0 : ℚ) < 10 ^ 9)]
  calc |value (m.next x)| * 10 ^ 9 ≤ (2 ^ 54 + 1) * 10 ^ 9 := by gcongr
    _ ≤ 2 ^ 100 := by norm_num
    _ < 2 ^ 1024 - 2 ^ 970 := hundred_bits_lt

/-- The search for the root of `x / 7` ends a little below zero, which is rounded to a zero without
its sign. -/
theorem findRoot_isFinite_seventh :
    let line : Expression := ⟨[.unknown, .number 7, .operator (.binary .divide)]⟩
    (line.findRoot ({} : Mode).context).outcome = .ok 0 ∧
      Float.isFinite 0 = true ∧ (0 : Float) ≠ -0 := by
  intro line
  have h : (line.findRoot ({} : Mode).context).outcome = .ok 0 := by decide +kernel
  exact ⟨h, findRoot_isFinite h⟩

end Calculator
