import Calculator.Proofs.Arithmetic

/-!
# Bounds that survive rounding

A representable number that bounds an exact result bounds the rounded one too. So lower bounds pass
through sums, products and quotients, where a result beyond all bounds is infinite. The integer part
of a double is that of the number it stands for.
-/

namespace Calculator.Binary64

open Float.Model (UnpackedFloat Format)
open Float.Model.UnpackedFloat

variable {p q : ℚ} {m k : Nat} {e : Int} {x y : Float}

/-! ## Representable bounds -/

theorem representable_natCast (hm : m < 2 ^ 53) : Representable m := by
  have h := representable_scaled (e := 0) hm (by norm_num)
  rwa [zpow_zero, mul_one] at h

theorem representable_mul_two_pow (hm : m < 2 ^ 53) (k : Nat) :
    Representable (m * 2 ^ k) := by
  have h := representable_scaled (e := k) hm (by omega)
  rwa [zpow_natCast] at h

theorem IsMagnitude.representable (h : IsMagnitude x) : Representable (value x) := by
  obtain ⟨m, e, hc, -, -, hv⟩ := h.exists_positive
  exact ⟨m, e, hc, hv⟩

/-- A finite double that is positive has no sign. -/
theorem isMagnitude_of_pos (hx : x.isFinite = true) (hpos : 0 < value x) : IsMagnitude x := by
  obtain ⟨s, m, e, -, -, hu⟩ := exists_signed hx
  cases s with
  | positive => exact ⟨hx, (isUnsigned_of_signed hu).mpr rfl⟩
  | negative =>
    have hnonneg : (0 : ℚ) ≤ m * 2 ^ e := by positivity
    rw [value_of_signed hu, apply_negative] at hpos
    linarith

theorem isZero_of_value (hx : x.isFinite = true) (h : value x = 0) : IsZero x := by
  obtain ⟨s, m, e, -, -, hu⟩ := exists_signed hx
  have hpos := two_zpow_pos e
  have hm : m = 0 := by
    rw [value_of_signed hu] at h
    cases s <;> simpa [Sign.apply, hpos.ne'] using h
  rw [hm, signed_zero] at hu
  exact ⟨s, hu⟩

theorem IsZero.value_eq (h : IsZero x) : x.isFinite = true ∧ value x = 0 := by
  obtain ⟨s, rfl⟩ := h.eq_pack
  have hu := unpack_pack_zero s
  have hfinite : (unpack (pack (.zero s))).isFinite = true := by
    rw [hu]
    rfl
  refine ⟨hfinite, ?_⟩
  rw [value, hu]

/-- A number below the bound of the finite doubles has an exponent that fits. -/
theorem Canonical.exponent_le (h : Canonical m e) (hlt : (m : ℚ) * 2 ^ e < 2 ^ 1024 - 2 ^ 970) :
    e ≤ 971 := by
  by_contra hgt
  have hnext := h.next_le (by omega)
  obtain ⟨p, hp, hx, hb⟩ := exists_half_step
  rw [hb] at hlt
  linarith

/-- The distance of the nearest double is no greater than that of a representable number. -/
theorem Nearest.le_representable (h : Nearest q x) (hx : x.isFinite = true)
    (hp : Representable p) (hlt : p < 2 ^ 1024 - 2 ^ 970) : |value x - q| ≤ |p - q| := by
  obtain ⟨m, e, hc, rfl⟩ := hp
  have hu := unpack_pack_signed .positive hc (hc.exponent_le hlt)
  have hclosest := h.closest hx _ (isFinite_of_signed hu)
  rwa [value_of_signed hu, apply_positive] at hclosest

/-- A representable lower bound is one after rounding. -/
theorem Nearest.le_value (h : Nearest q x) (hx : x.isFinite = true) (hp : Representable p)
    (hpq : p ≤ q) : p ≤ value x := by
  have hle := h.le_representable hx hp (hpq.trans_lt (h.finite.mp hx))
  rw [abs_sub_comm p, abs_of_nonneg (sub_nonneg.mpr hpq)] at hle
  have := (abs_le.mp hle).1
  linarith

/-- A representable upper bound is one after rounding. -/
theorem Nearest.value_le (h : Nearest q x) (hx : x.isFinite = true) (hp : Representable p)
    (hlt : p < 2 ^ 1024 - 2 ^ 970) (hqp : q ≤ p) : value x ≤ p := by
  have hle := h.le_representable hx hp hlt
  rw [abs_of_nonneg (sub_nonneg.mpr hqp)] at hle
  have := (abs_le.mp hle).2
  linarith

theorem IsMagnitude.value_lt (h : IsMagnitude x) : value x < 2 ^ 1024 - 2 ^ 970 :=
  h.nearest.finite.mp h.finite

/-- A double that is rounded up is so by less than a unit in its last place. -/
theorem Nearest.sub_unit (h : Nearest q x) (hx : x.isFinite = true) (hc : Canonical m e)
    (hv : value x = m * 2 ^ e) (hm : 0 < m) :
    Representable (value x - 2 ^ e) ∧ value x - 2 ^ e < q := by
  have hunit := two_zpow_pos e
  have hpred : value x - 2 ^ e = ((m - 1 : Nat) : ℚ) * 2 ^ e := by
    rw [hv, Nat.cast_sub hm, Nat.cast_one]
    ring
  have hrep : Representable (value x - 2 ^ e) := by
    rw [hpred]
    exact representable_scaled ((Nat.sub_le m 1).trans_lt hc.lt) hc.least
  refine ⟨hrep, ?_⟩
  by_contra hle
  have hlt : value x - 2 ^ e < 2 ^ 1024 - 2 ^ 970 :=
    (sub_lt_self _ hunit).trans (IsMagnitude.value_lt ⟨hx, h.unsigned⟩)
  have := h.value_le hx hrep hlt (not_lt.mp hle)
  linarith

/-- No finite double is greater in magnitude than the largest one. -/
theorem abs_value_le (hx : x.isFinite = true) : |value x| ≤ 2 ^ 1024 - 2 * 2 ^ 970 := by
  obtain ⟨s, m, e, hc, he, hu⟩ := exists_signed hx
  have hlargest : ((2 ^ 53 - 1 : Nat) : ℚ) * 2 ^ (971 : Int) = 2 ^ 1024 - 2 * 2 ^ 970 := by
    have hpow : (2 : ℚ) ^ (971 : Int) = 2 * 2 ^ 970 := (zpow_natCast 2 971).trans (pow_succ' 2 970)
    have hbound : (2 : ℚ) ^ 1024 = 2 ^ 54 * 2 ^ 970 := pow_add 2 54 970
    rw [hpow, hbound]
    generalize (2 : ℚ) ^ 970 = p
    push_cast
    ring
  rw [value_of_signed hu, abs_apply, ← hlargest]
  exact hc.le_largest he

theorem abs_value_lt (hx : x.isFinite = true) : |value x| < 2 ^ 1024 - 2 ^ 970 := by
  have hpos : (0 : ℚ) < 2 ^ 970 := pow_pos two_pos 970
  refine (abs_value_le hx).trans_lt (sub_lt_sub_left ?_ _)
  exact lt_mul_of_one_lt_left hpos one_lt_two

/-- What is no greater than a finite double is rounded to a finite one. -/
theorem Nearest.isFinite_of_le (h : Nearest q x) (hy : IsMagnitude y) (hle : q ≤ value y) :
    x.isFinite = true := h.finite.mpr (hle.trans_lt hy.value_lt)

/-! ## Lower bounds -/

/-- The double has no sign, and is infinite or no less than `q`. -/
structure AtLeast (q : ℚ) (x : Float) : Prop where
  unsigned : IsUnsigned x
  le : x.isFinite = true → q ≤ value x

theorem AtLeast.mono (h : AtLeast q x) (hpq : p ≤ q) : AtLeast p x :=
  ⟨h.unsigned, fun hx => hpq.trans (h.le hx)⟩

theorem Nearest.atLeast (h : Nearest q x) (hp : Representable p) (hpq : p ≤ q) : AtLeast p x :=
  ⟨h.unsigned, fun hx => h.le_value hx hp hpq⟩

theorem IsMagnitude.atLeast (h : IsMagnitude x) : AtLeast (value x) x :=
  ⟨h.unsigned, fun _ => le_rfl⟩

theorem atLeast_infinity (h : unpack x = .infinity .positive) : AtLeast q x :=
  ⟨by rw [IsUnsigned, h], fun hx => absurd hx (Bool.eq_false_iff.mp (isFinite_of_infinity h))⟩

/-- A double without sign is finite or infinity. -/
theorem magnitude_or_infinity (h : IsUnsigned x) :
    IsMagnitude x ∨ unpack x = .infinity .positive := by
  have hs := h
  rw [IsUnsigned] at hs
  cases hu : unpack x with
  | notANumber =>
    rw [hu] at hs
    exact hs.elim
  | infinity s =>
    rw [hu] at hs
    obtain rfl : s = .positive := hs
    exact .inr rfl
  | zero s => exact .inl ⟨by change (unpack x).isFinite = true; rw [hu]; rfl, h⟩
  | finite s m e hm => exact .inl ⟨by change (unpack x).isFinite = true; rw [hu]; rfl, h⟩

theorem IsUnsigned.infinity_of_not_finite (h : IsUnsigned x) (hx : x.isFinite = false) :
    unpack x = .infinity .positive :=
  (magnitude_or_infinity h).resolve_left fun hm => Bool.false_ne_true (hx.symm.trans hm.finite)

/-- A sum with a double without sign is finite or infinity, not minus infinity. -/
theorem IsMagnitude.add_eq_infinity (hx : x.isFinite = true) (hy : IsMagnitude y)
    (h : (x + y).isFinite = false) : unpack (x + y) = .infinity .positive := by
  have hpos : 0 < value x + value y := by
    by_contra hle
    have hlower := (abs_lt.mp (abs_value_lt hx)).1
    have hnonneg := hy.value_nonneg
    have hfin : (x + y).isFinite = true := by
      rw [isFinite_add_iff hx hy.finite, abs_of_nonpos (not_lt.mp hle)]
      generalize (2 : ℚ) ^ 1024 - 2 ^ 970 = bound at *
      linarith
    exact Bool.false_ne_true (h.symm.trans hfin)
  have hsum := Binary64.nearest_add hx hy.finite (.inl hpos)
  exact hsum.unsigned.infinity_of_not_finite h

theorem IsMagnitude.exists_finite (h : IsMagnitude x) (hpos : 0 < value x) :
    ∃ m e hm, unpack x = .finite .positive m e hm := by
  obtain ⟨m, e, -, -, hu, hv⟩ := h.exists_positive
  have hm : 0 < m := by
    refine Nat.pos_of_ne_zero ?_
    rintro rfl
    rw [hv, Nat.cast_zero, zero_mul] at hpos
    exact hpos.false
  exact ⟨m, e, hm, hu.trans (signed_eq_finite hm)⟩

theorem AtLeast.add (hx : AtLeast p x) (hy : IsMagnitude y)
    (hr : Representable (p + value y)) : AtLeast (p + value y) (x + y) := by
  obtain hxm | hxi := magnitude_or_infinity hx.unsigned
  · exact (hxm.nearest_add hy).atLeast hr (add_le_add_left (hx.le hxm.finite) _)
  · refine atLeast_infinity ?_
    obtain ⟨n, f, -, -, hu, -⟩ := hy.exists_positive
    have hadd : unpack (x + y) = unpack (pack (.add .binary64 (unpack x) (unpack y))) := rfl
    have hinf : UnpackedFloat.add .binary64 (.infinity .positive) (signed .positive n f) =
        .infinity .positive := by
      unfold signed
      split_ifs <;> rfl
    rw [hadd, hxi, hu, hinf]
    exact unpack_pack_infinity .positive

/-- A positive double times infinity is infinity. -/
theorem IsMagnitude.mul_infinity (hx : IsMagnitude x) (hpos : 0 < value x)
    (hy : unpack y = .infinity .positive) : unpack (x * y) = .infinity .positive := by
  obtain ⟨m, e, hm, hu⟩ := hx.exists_finite hpos
  have hmul : unpack (x * y) = unpack (pack (.mul .binary64 (unpack x) (unpack y))) := rfl
  rw [hmul, hy, hu]
  exact unpack_pack_infinity .positive

theorem IsMagnitude.mul_atLeast (hx : IsMagnitude x) (hp : p ≤ value x) (hpos : 0 < p)
    (hy : AtLeast q y) (hq : 0 ≤ q) (hr : Representable (p * q)) : AtLeast (p * q) (x * y) := by
  obtain hym | hyi := magnitude_or_infinity hy.unsigned
  · exact (hx.nearest_mul hym).atLeast hr
      (mul_le_mul hp (hy.le hym.finite) hq (hpos.le.trans hp))
  · exact atLeast_infinity (hx.mul_infinity (hpos.trans_le hp) hyi)

/-- Infinity over a positive double is infinity. -/
theorem IsMagnitude.infinity_div (hx : unpack x = .infinity .positive) (hy : IsMagnitude y)
    (hpos : 0 < value y) : unpack (x / y) = .infinity .positive := by
  obtain ⟨n, f, hn, hu⟩ := hy.exists_finite hpos
  have hdiv : unpack (x / y) = unpack (pack (.div .binary64 (unpack x) (unpack y))) := rfl
  rw [hdiv, hx, hu]
  exact unpack_pack_infinity .positive

theorem AtLeast.div (hx : AtLeast p x) (hy : IsMagnitude y) (hpos : 0 < value y)
    (hr : Representable (p / value y)) : AtLeast (p / value y) (x / y) := by
  obtain hxm | hxi := magnitude_or_infinity hx.unsigned
  · exact (hxm.nearest_div hy hpos).atLeast hr
      (div_le_div_of_nonneg_right (hx.le hxm.finite) hpos.le)
  · exact atLeast_infinity (hy.infinity_div hxi hpos)

/-- No finite double is as large as `2 ^ 1024`. -/
theorem AtLeast.isFinite_eq_false (h : AtLeast (2 ^ 1024) x) : x.isFinite = false := by
  refine Bool.eq_false_iff.mpr fun hx => ?_
  have hlt := IsMagnitude.value_lt ⟨hx, h.unsigned⟩
  have hpos : (0 : ℚ) < 2 ^ 970 := by positivity
  exact absurd ((h.le hx).trans_lt hlt) (sub_le_self _ hpos.le).not_gt

/-! ## Integers -/

/-- The integer part of a double is that of the number it stands for, and zero below zero. -/
theorem toNat_eq_floor (x : Float) : toNat x = ⌊value x⌋₊ := by
  unfold toNat value
  cases hu : unpack x with
  | notANumber => exact Nat.floor_zero.symm
  | infinity s => exact Nat.floor_zero.symm
  | zero s => exact Nat.floor_zero.symm
  | finite s m e hm =>
    cases s with
    | negative =>
      simp only [apply_negative]
      exact (Nat.floor_of_nonpos (neg_nonpos.mpr (by positivity))).symm
    | positive =>
      simp only [apply_positive]
      obtain ⟨k, rfl | rfl⟩ := e.eq_nat_or_neg
      · have hneg : (-(k : Int)).toNat = 0 := by omega
        have hv : (m : ℚ) * 2 ^ (k : Int) = ((m * 2 ^ k : Nat) : ℚ) := by
          rw [zpow_natCast]
          push_cast
          rfl
        rw [hv, Nat.floor_natCast, Int.toNat_natCast, hneg, Nat.shiftLeft_eq, Nat.shiftRight_zero]
      · have hneg : (-(k : Int)).toNat = 0 := by omega
        have hv : (m : ℚ) * 2 ^ (-(k : Int)) = (m : ℚ) / ((2 ^ k : Nat) : ℚ) := by
          rw [zpow_neg, zpow_natCast, ← div_eq_mul_inv]
          push_cast
          rfl
        rw [hv, Nat.floor_div_eq_div, hneg, neg_neg, Int.toNat_natCast, Nat.shiftLeft_zero,
          Nat.shiftRight_eq_div_pow]

/-- Rounding to an integer leaves a natural number alone; any other double without sign stands for a
fraction over a power of two. -/
theorem roundBy_cases (choose : Sign → (whole rest unit : Nat) → Nat) (hx : IsMagnitude x) :
    (∃ j : Nat, value x = j ∧ roundBy choose x = x) ∨
      ∃ m k : Nat, m < 2 ^ 53 ∧ value x = (m : ℚ) / ((2 ^ k : Nat) : ℚ) ∧
        roundBy choose x =
          ofScaled .positive (choose .positive (m / 2 ^ k) (m % 2 ^ k) (2 ^ k)) 0 := by
  obtain ⟨m, e, hc, -, hu, hv⟩ := hx.exists_positive
  obtain rfl | hm := Nat.eq_zero_or_pos m
  · rw [signed_zero] at hu
    exact .inl ⟨0, by rw [hv, Nat.cast_zero, zero_mul], by simp only [roundBy, hu]⟩
  · rw [signed_eq_finite hm] at hu
    by_cases hpos : 0 ≤ e
    · obtain ⟨k, rfl⟩ := Int.eq_ofNat_of_zero_le hpos
      refine .inl ⟨m * 2 ^ k, ?_, by simp only [roundBy, hu, if_pos hpos]⟩
      rw [hv, zpow_natCast]
      push_cast
      rfl
    · obtain ⟨k, rfl⟩ : ∃ k : Nat, e = -k := ⟨(-e).toNat, by omega⟩
      refine .inr ⟨m, k, hc.lt, ?_, ?_⟩
      · rw [hv, zpow_neg, zpow_natCast, ← div_eq_mul_inv]
        push_cast
        rfl
      · simp only [roundBy, hu, if_neg hpos, neg_neg, Int.toNat_natCast, Nat.one_shiftLeft]

theorem value_ofScaled (hm : m < 2 ^ 53) :
    IsMagnitude (ofScaled .positive m 0) ∧ value (ofScaled .positive m 0) = m := by
  have h := (nearest_ofScaled m 0).exact hm (by norm_num) (by norm_num) rfl
  rwa [zpow_zero, mul_one] at h

theorem IsZero.floor_eq (hx : IsZero x) : floor x = x := by
  obtain ⟨s, hs⟩ := hx
  simp only [floor, roundBy, hs]

/-- The floor of a double without sign is exact. -/
theorem value_floor (hx : IsMagnitude x) :
    IsMagnitude (floor x) ∧ value (floor x) = ⌊value x⌋₊ := by
  unfold floor
  obtain ⟨j, hv, hfloor⟩ | ⟨m, k, hm, hv, hfloor⟩ := roundBy_cases _ hx
  · rw [hfloor, hv, Nat.floor_natCast]
    exact ⟨hx, rfl⟩
  · rw [hfloor, hv, Nat.floor_div_eq_div]
    exact value_ofScaled ((Nat.div_le_self m _).trans_lt hm)

/-- A half added before the integer part is taken rounds to the nearest integer. -/
theorem add_half_div (m : Nat) {unit : Nat} (hunit : 0 < unit) :
    (2 * m + unit) / (2 * unit) =
      if unit ≤ 2 * (m % unit) then m / unit + 1 else m / unit := by
  have hm := Nat.div_add_mod m unit
  have hlt := Nat.mod_lt m hunit
  generalize m / unit = whole at *
  generalize m % unit = rest at *
  have hsum : 2 * m + unit = 2 * unit * whole + (2 * rest + unit) := by
    rw [← hm]
    ring
  rw [hsum, Nat.mul_add_div (by omega)]
  split_ifs with h
  · rw [Nat.div_eq_of_lt_le (k := 1) (by omega) (by omega)]
  · rw [Nat.div_eq_of_lt (by omega), Nat.add_zero]

theorem floor_add_half (n : Nat) : ⌊(n : ℚ) + 1 / 2⌋₊ = n := by
  rw [Nat.floor_eq_iff (by positivity)]
  constructor <;> linarith

/-- The nearest integer is at most twice as far from an integer as the number itself. -/
theorem abs_floor_half_sub_le (hq : 0 ≤ q) (n : Nat) :
    |((⌊q + 1 / 2⌋₊ : ℕ) : ℚ) - n| ≤ 2 * |q - n| := by
  have hle := Nat.floor_le (by linarith : 0 ≤ q + 1 / 2)
  have hlt := Nat.lt_floor_add_one (q + 1 / 2)
  obtain heq | hne := eq_or_ne ⌊q + 1 / 2⌋₊ n
  · rw [heq, sub_self, abs_zero]
    positivity
  · -- another integer is a half away, or farther
    have hnear : |((⌊q + 1 / 2⌋₊ : ℕ) : ℚ) - q| ≤ 1 / 2 := abs_le.mpr ⟨by linarith, by linarith⟩
    have hfar := half_le_abs_of_ne hnear hne.symm
    have htri := abs_sub_le ((⌊q + 1 / 2⌋₊ : ℕ) : ℚ) q n
    rw [abs_sub_comm (n : ℚ)] at hfar
    linarith

/-- The nearest integer of a double without sign is exact. -/
theorem value_round (hx : IsMagnitude x) :
    IsMagnitude (round x) ∧ value (round x) = ⌊value x + 1 / 2⌋₊ := by
  unfold round
  obtain ⟨j, hv, hround⟩ | ⟨m, k, hm, hv, hround⟩ := roundBy_cases _ hx
  · rw [hround, hv, floor_add_half]
    exact ⟨hx, rfl⟩
  · have hunit : 0 < 2 ^ k := by positivity
    have hquot : value x + 1 / 2 = ((2 * m + 2 ^ k : Nat) : ℚ) / ((2 * 2 ^ k : Nat) : ℚ) := by
      rw [hv]
      push_cast
      field_simp
    rw [hround, hquot, Nat.floor_div_eq_div, ← add_half_div m hunit]
    refine value_ofScaled ((Nat.div_lt_iff_lt_mul (by positivity)).mpr ?_)
    nlinarith

/-- A significand without a fraction stands for a natural number. -/
theorem exists_nat_of_mod (h : m % (1 <<< (-e).toNat) = 0) : ∃ j : Nat, (m : ℚ) * 2 ^ e = j := by
  obtain ⟨k, rfl | rfl⟩ := e.eq_nat_or_neg
  · refine ⟨m * 2 ^ k, ?_⟩
    rw [zpow_natCast]
    push_cast
    rfl
  · rw [neg_neg, Int.toNat_natCast, Nat.one_shiftLeft] at h
    obtain ⟨j, rfl⟩ := Nat.dvd_of_mod_eq_zero h
    refine ⟨j, ?_⟩
    rw [zpow_neg, zpow_natCast]
    push_cast
    field_simp

theorem exists_int_of_isIntegral (h : isIntegral x = true) :
    x.isFinite = true ∧ ∃ k : ℤ, value x = k := by
  have hfinite : x.isFinite = (unpack x).isFinite := rfl
  unfold isIntegral at h
  rw [hfinite, value]
  cases hu : unpack x with
  | notANumber =>
    rw [hu] at h
    cases h
  | infinity s =>
    rw [hu] at h
    cases h
  | zero s => exact ⟨rfl, 0, rfl⟩
  | finite s m e hm =>
    rw [hu] at h
    obtain ⟨j, hj⟩ := exists_nat_of_mod (beq_iff_eq.mp h)
    refine ⟨rfl, ?_⟩
    cases s with
    | positive =>
      refine ⟨j, ?_⟩
      simp only [apply_positive]
      exact_mod_cast hj
    | negative =>
      refine ⟨-j, ?_⟩
      simp only [apply_negative]
      exact_mod_cast congrArg Neg.neg hj

theorem value_zero : value 0 = 0 := rfl

/-- An integral double that is not negative stands for its integer part. -/
theorem value_eq_toNat (h : isIntegral x = true) (h0 : 0 ≤ x) :
    x.isFinite = true ∧ value x = toNat x := by
  obtain ⟨hx, k, hk⟩ := exists_int_of_isIntegral h
  have hnonneg : 0 ≤ value x := by
    rw [← value_zero]
    exact (le_iff_value (by decide +kernel) hx).mp h0
  rw [hk] at hnonneg
  obtain ⟨j, rfl⟩ := Int.eq_ofNat_of_zero_le (by exact_mod_cast hnonneg)
  rw [Int.cast_natCast] at hk
  rw [toNat_eq_floor, hk, Nat.floor_natCast]
  exact ⟨hx, rfl⟩

end Calculator.Binary64
