import Calculator.Proofs.Counters
import Calculator.Proofs.Selections

/-!
# Binomial coefficients that overflow

A factor is multiplied in before the division that belongs to it. So it is not the coefficient that
must fit, but the coefficient times the shorter side: where that is too large, the number of
combinations is infinite, though the coefficient itself may be far below the largest double.
Everywhere else it is the coefficient, up to a small part of it.
-/

namespace Calculator.Combinatorics

open Binary64

variable {x y s v factor divisor : Float} {n r d k : Nat}

/-! ## One factor and its divisor -/

/-- What the product of combinations is after `k` factors: the coefficient, up to two roundings for
each factor, or infinity because the coefficient times its last divisor was too large. -/
structure Follows (d k : Nat) (v : Float) : Prop where
  unsigned : IsUnsigned v
  accurate : v.isFinite = true → Within (2 * k) ((d + k).choose k) v
  fits : v.isFinite = true →
    (1 - roundoff) ^ (2 * k) * (k * (d + k).choose k : Nat) < 2 ^ 1024 - 2 ^ 970
  overflows : v.isFinite = false →
    2 ^ 1024 - 2 ^ 970 ≤ (1 + roundoff) ^ (2 * k) * (k * (d + k).choose k : Nat)

theorem follows_one (d : Nat) : Follows d 0 1 where
  unsigned := isMagnitude_one.unsigned
  accurate _ := by
    refine ⟨isMagnitude_one, ?_, ?_⟩ <;> simp [value_one]
  fits _ := by
    rw [Nat.zero_mul, Nat.cast_zero, mul_zero]
    exact sub_pos.mpr (pow_lt_pow_right₀ one_lt_two (by norm_num))
  overflows h := absurd isMagnitude_one.finite (Bool.eq_false_iff.mp h)

theorem one_le_choose (d k : Nat) : (1 : ℚ) ≤ (d + k).choose k := by
  exact_mod_cast Nat.choose_pos (Nat.le_add_left k d)

theorem choose_mul_factor_cast (d k : Nat) : ((d + k).choose k : ℚ) * (d + (k + 1) : Nat) =
    (d + (k + 1)).choose (k + 1) * (k + 1 : Nat) := by
  exact_mod_cast choose_mul_factor d k

/-- A product that stays finite is divided. -/
theorem follows_of_finite (h : Within (2 * k) ((d + k).choose k) v)
    (hfactor : StandsFor factor (d + (k + 1))) (hdivisor : StandsFor divisor (k + 1))
    (hk : k < 1024) (hfin : (v * factor).isFinite = true) :
    Follows d (k + 1) (v * factor / divisor) := by
  have hmul := h.mul (by omega) (one_le_choose d k) hfactor (by omega) hfin
  rw [choose_mul_factor_cast] at hmul
  have hdiv := hmul.div (by omega) (one_le_choose d (k + 1)) hdivisor (Nat.succ_pos k)
  refine ⟨hdiv.magnitude.unsigned, fun _ => hdiv, fun _ => ?_,
    fun hinf => absurd hdiv.magnitude.finite (Bool.eq_false_iff.mp hinf)⟩
  have hpow : (1 - roundoff) ^ (2 * (k + 1)) ≤ (1 - roundoff) ^ (2 * k + 1) :=
    pow_le_pow_of_le_one (by linarith [roundoff_lt_one]) (by linarith [roundoff_pos]) (by omega)
  rw [mul_comm (k + 1), Nat.cast_mul]
  calc (1 - roundoff) ^ (2 * (k + 1)) * (((d + (k + 1)).choose (k + 1) : ℚ) * (k + 1 : Nat))
      ≤ (1 - roundoff) ^ (2 * k + 1) * (((d + (k + 1)).choose (k + 1) : ℚ) * (k + 1 : Nat)) :=
        mul_le_mul_of_nonneg_right hpow (by positivity)
    _ ≤ value (v * factor) := hmul.lower
    _ < 2 ^ 1024 - 2 ^ 970 := hmul.magnitude.value_lt

/-- A product that overflows stays infinity. -/
theorem follows_of_infinite (h : Within (2 * k) ((d + k).choose k) v)
    (hfactor : StandsFor factor (d + (k + 1))) (hdivisor : StandsFor divisor (k + 1))
    (hinf : (v * factor).isFinite = false) : Follows d (k + 1) (v * factor / divisor) := by
  obtain ⟨hproduct, hlarge⟩ := h.mul_overflow hfactor (by omega) hinf
  rw [choose_mul_factor_cast] at hlarge
  have hpos : 0 < value divisor := by
    rw [hdivisor.value_eq]
    positivity
  have hquotient := (hdivisor.isMagnitude (Nat.succ_pos k)).infinity_div hproduct hpos
  have hnot := Bool.eq_false_iff.mp (isFinite_of_infinity hquotient)
  refine ⟨(atLeast_infinity (q := 0) hquotient).unsigned, fun hfin => absurd hfin hnot,
    fun hfin => absurd hfin hnot, fun _ => hlarge.trans ?_⟩
  have hpow : (1 + roundoff) ^ (2 * k) ≤ (1 + roundoff) ^ (2 * (k + 1)) :=
    pow_le_pow_right₀ (by linarith [roundoff_pos]) (by omega)
  rw [mul_comm (k + 1), Nat.cast_mul]
  exact mul_le_mul_of_nonneg_right hpow (by positivity)

/-! ## The whole product -/

/-- The product follows the coefficients as far as it goes, which is all the way if it is finite. -/
theorem combinationProduct_follows (hx : StandsFor x n) (hy : StandsFor y r) (hr : r ≤ n)
    (hn : n ≤ 2 ^ 53) :
    ∃ k w, combinationProduct x (shorterSide x y) = ⟨k, w⟩ ∧ Follows (n - min r (n - r)) k w ∧
      k ≤ min r (n - r) ∧ k ≤ 1024 ∧ (w.isFinite = true → k = min r (n - r)) := by
  have hshort := standsFor_shorterSide hx hy hr hn
  have hd := hx.sub hshort (by omega) hn
  obtain ⟨hend, -⟩ := Guarded.combinationLoop_endsAfter (isSelection_of_standsFor hx hy hr)
  have hm : n - min r (n - r) + min r (n - r) = n := by omega
  rw [combinationProduct_eq_partial, hshort.toNat_eq] at hend ⊢
  generalize min r (n - r) = m at *
  obtain ⟨k, w, hrun, hInv, -, hle, hfinite⟩ :=
    multiply_run (fun k v => k ≤ 1024 → Follows (n - m) k v) (fun k hk v hfin hv hsucc => by
      have hwithin := (hv (by omega)).accurate hfin
      have hfactor := standsFor_factor (k := k) hd (by omega) (by omega)
      have hdivisor := standsFor_ofNat (n := k + 1) (by omega)
      by_cases hproduct : (v * (x - shorterSide x y + .ofNat (k + 1))).isFinite = true
      · exact follows_of_finite hwithin hfactor hdivisor (by omega) hproduct
      · exact follows_of_infinite hwithin hfactor hdivisor (Bool.eq_false_iff.mpr hproduct))
      (Nat.zero_add m) (fun _ => follows_one (n - m))
  rw [partialCombination, one, hrun] at hend ⊢
  exact ⟨k, w, rfl, hInv hend, hle, hend, hfinite⟩

/-! ## The limit -/

theorem mul_roundoff_le (hk : k ≤ 1024) : ((2 * k : Nat) : ℚ) * roundoff ≤ 1 / 2 ^ 42 := by
  have hk : (k : ℚ) ≤ 1024 := by exact_mod_cast hk
  unfold roundoff
  push_cast
  linarith

theorem Follows.le_of_infinite (h : Follows d k v) (hk : k ≤ 1024) (hinf : v.isFinite = false) :
    (1 - 1 / 2 ^ 40) * 2 ^ 1024 ≤ ((k * (d + k).choose k : Nat) : ℚ) := by
  have hlarge := h.overflows hinf
  have hpow := pow_mul_le_one (2 * k)
  have hsmall := mul_roundoff_le hk
  have hbound : (2 : ℚ) ^ 1024 = 2 ^ 54 * 2 ^ 970 := pow_add 2 54 970
  have hpos : (0 : ℚ) < 2 ^ 970 := by positivity
  have hN : (0 : ℚ) ≤ ((k * (d + k).choose k : Nat) : ℚ) := Nat.cast_nonneg _
  rw [hbound] at hlarge ⊢
  clear hbound
  generalize (2 : ℚ) ^ 970 = p at *
  generalize ((2 * k : Nat) : ℚ) * roundoff = part at *
  generalize (1 + roundoff) ^ (2 * k) = factor at *
  generalize ((k * (d + k).choose k : Nat) : ℚ) = product at *
  have hone : 0 ≤ 1 - part := by linarith
  calc (1 - 1 / 2 ^ 40) * (2 ^ 54 * p) ≤ (2 ^ 54 * p - p) * (1 - 1 / 2 ^ 42) := by linarith
    _ ≤ (2 ^ 54 * p - p) * (1 - part) :=
      mul_le_mul_of_nonneg_left (by linarith) (by linarith)
    _ ≤ factor * product * (1 - part) := mul_le_mul_of_nonneg_right hlarge hone
    _ = factor * (1 - part) * product := by ring
    _ ≤ product := mul_le_of_le_one_left hN hpow

theorem Follows.lt_of_finite (h : Follows d k v) (hk : k ≤ 1024) (hfin : v.isFinite = true) :
    ((k * (d + k).choose k : Nat) : ℚ) < (1 + 1 / 2 ^ 40) * 2 ^ 1024 := by
  have hfits := h.fits hfin
  have hpow := one_sub_mul_le_pow (2 * k)
  have hsmall := mul_roundoff_le hk
  have hpos : (0 : ℚ) < 2 ^ 970 := by positivity
  have hlimit : (0 : ℚ) < 2 ^ 1024 := by positivity
  have hN : (0 : ℚ) ≤ ((k * (d + k).choose k : Nat) : ℚ) := Nat.cast_nonneg _
  generalize (2 : ℚ) ^ 970 = p at *
  generalize (2 : ℚ) ^ 1024 = limit at *
  generalize ((2 * k : Nat) : ℚ) * roundoff = part at *
  generalize (1 - roundoff) ^ (2 * k) = factor at *
  generalize ((k * (d + k).choose k : Nat) : ℚ) = product at *
  have hlt : (1 - 1 / 2 ^ 42) * product < limit :=
    calc (1 - 1 / 2 ^ 42) * product ≤ factor * product :=
          mul_le_mul_of_nonneg_right (by linarith) hN
      _ < limit := by linarith
  linarith

theorem round_of_infinity (h : unpack v = .infinity .positive) : Binary64.round v = infinity := by
  have hround : Binary64.round v = v := by simp only [Binary64.round, roundBy, h]
  rw [hround]
  exact eq_infinity h

/-- The number of combinations is infinity, and the coefficient times the shorter side is at the
limit of the doubles; or it is the coefficient up to a small part, and that product is not. -/
theorem combinations_cases (hx : StandsFor x n) (hy : StandsFor y r) (hr : r ≤ n)
    (hn : n ≤ 2 ^ 53) :
    (combinations x y = .ok infinity ∧
        (1 - 1 / 2 ^ 40) * 2 ^ 1024 ≤ ((min r (n - r) * n.choose r : Nat) : ℚ)) ∨
      ∃ v, combinations x y = .ok v ∧ v.isFinite = true ∧
        |value v - n.choose r| ≤ n.choose r / 2 ^ 40 ∧
        ((min r (n - r) * n.choose r : Nat) : ℚ) < (1 + 1 / 2 ^ 40) * 2 ^ 1024 := by
  obtain ⟨k, w, hproduct, hfollows, hle, hk, hend⟩ := combinationProduct_follows hx hy hr hn
  have hresult : combinations x y = .ok (Binary64.round w) := by
    rw [combinations, if_pos (isSelection_of_standsFor hx hy hr), hproduct]
  rw [choose_shorterSide hr, hresult]
  by_cases hfin : w.isFinite = true
  · obtain rfl := hend hfin
    have hwithin := hfollows.accurate hfin
    obtain ⟨hround, hvalue⟩ := value_round hwithin.magnitude
    refine .inr ⟨_, rfl, hround.finite, ?_, hfollows.lt_of_finite hk hfin⟩
    have hnear := hwithin.abs_sub_le (by omega) (Nat.cast_nonneg _)
    have hinteger := abs_floor_half_sub_le hwithin.magnitude.value_nonneg
      ((n - min r (n - r) + min r (n - r)).choose (min r (n - r)))
    rw [hvalue]
    linarith
  · have hinf := Bool.eq_false_iff.mpr hfin
    have hunpack := hfollows.unsigned.infinity_of_not_finite hinf
    refine .inl ⟨congrArg _ (round_of_infinity hunpack), ?_⟩
    refine (hfollows.le_of_infinite hk hinf).trans ?_
    exact_mod_cast mul_choose_mono (n - min r (n - r)) hle

/-- The number of combinations is infinite as soon as the coefficient times the shorter side is
beyond the limit of the doubles, and only if that product is at the limit. In all other cases it is
the coefficient up to a small part of it. -/
theorem combinations_eq_infinity (hx : StandsFor x n) (hy : StandsFor y r) (hr : r ≤ n)
    (hn : n ≤ 2 ^ 53) :
    ∃ v, combinations x y = .ok v ∧
      (v = infinity → (1 - 1 / 2 ^ 40) * 2 ^ 1024 ≤ ((min r (n - r) * n.choose r : Nat) : ℚ)) ∧
      ((1 + 1 / 2 ^ 40) * 2 ^ 1024 ≤ ((min r (n - r) * n.choose r : Nat) : ℚ) → v = infinity) ∧
      (v ≠ infinity → v.isFinite = true ∧ |value v - n.choose r| ≤ n.choose r / 2 ^ 40) := by
  have hinfinity : infinity.isFinite = false :=
    isFinite_of_infinity (unpack_pack_infinity .positive)
  obtain ⟨hv, hlarge⟩ | ⟨v, hv, hfin, hnear, hsmall⟩ := combinations_cases hx hy hr hn
  · exact ⟨_, hv, fun _ => hlarge, fun _ => rfl, fun hne => absurd rfl hne⟩
  · have hne : v ≠ infinity := by
      rintro rfl
      rw [hinfinity] at hfin
      cases hfin
    exact ⟨v, hv, fun h => absurd h hne, fun h => absurd hsmall (not_lt.mpr h),
      fun _ => ⟨hfin, hnear⟩⟩

/-- Here the product is just below the limit. -/
theorem combinations_eq_infinity_1020 :
    (StandsFor 1020 1020 ∧ StandsFor 510 510) ∧
    ∃ v, combinations 1020 510 = .ok v ∧
      (v = infinity → (1 - 1 / 2 ^ 40) * 2 ^ 1024 ≤
        ((min 510 (1020 - 510) * Nat.choose 1020 510 : Nat) : ℚ)) ∧
      ((1 + 1 / 2 ^ 40) * 2 ^ 1024 ≤
        ((min 510 (1020 - 510) * Nat.choose 1020 510 : Nat) : ℚ) → v = infinity) ∧
      (v ≠ infinity → v.isFinite = true ∧
        |value v - Nat.choose 1020 510| ≤ Nat.choose 1020 510 / 2 ^ 40) := by
  have hx : StandsFor 1020 1020 := standsFor_ofNat (n := 1020) (by norm_num)
  have hy : StandsFor 510 510 := standsFor_ofNat (n := 510) (by norm_num)
  exact ⟨⟨hx, hy⟩, combinations_eq_infinity hx hy (by norm_num) (by norm_num)⟩

/-- The coefficient of 510 out of 1021 is far below the largest double. The number of combinations
is infinite. -/
theorem combinations_overflow :
    combinations 1021 510 = .ok infinity ∧ Nat.choose 1021 510 ≤ (2 ^ 53 - 1) * 2 ^ 971 := by
  have hx : StandsFor 1021 1021 := standsFor_ofNat (n := 1021) (by norm_num)
  have hy : StandsFor 510 510 := standsFor_ofNat (n := 510) (by norm_num)
  have hproduct : (2 ^ 40 + 1) * 2 ^ 984 ≤ min 510 (1021 - 510) * Nat.choose 1021 510 := by
    rw [Nat.choose_eq_factorial_div_factorial (by norm_num)]
    decide +kernel
  refine ⟨?_, (Nat.choose_le_two_pow 1021 510).trans (by decide +kernel)⟩
  obtain ⟨hv, -⟩ | ⟨v, hv, -, -, hsmall⟩ := combinations_cases hx hy (by norm_num) (by norm_num)
  · exact hv
  · have hlarge : ((2 : ℚ) ^ 40 + 1) * 2 ^ 984 ≤
        ((min 510 (1021 - 510) * Nat.choose 1021 510 : Nat) : ℚ) := by exact_mod_cast hproduct
    have hlimit : (2 : ℚ) ^ 1024 = 2 ^ 40 * 2 ^ 984 := pow_add 2 40 984
    rw [hlimit] at hsmall
    generalize ((min 510 (1021 - 510) * Nat.choose 1021 510 : Nat) : ℚ) = product at *
    generalize (2 : ℚ) ^ 984 = p at *
    linarith

end Calculator.Combinatorics
