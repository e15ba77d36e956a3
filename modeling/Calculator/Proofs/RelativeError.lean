import Calculator.Proofs.Naturals

/-!
# The relative error of rounding

A number that is not too small is rounded by at most one part in `2 ^ 53` of itself. A chain of
products and quotients with exact factors is off by at most as many such parts as it has roundings,
each taken of the number rounded so far.
-/

namespace Calculator.Binary64

open Float.Model.UnpackedFloat

variable {p q : ℚ} {m n k : Nat} {e : Int} {x y : Float}

/-- A rounding moves a number by at most this part of it. -/
def roundoff : ℚ := 1 / 2 ^ 53

theorem roundoff_pos : 0 < roundoff := by norm_num [roundoff]

theorem roundoff_lt_one : roundoff < 1 := by norm_num [roundoff]

/-! ## One rounding -/

/-- The binade of a number that is not below the normal ones. -/
theorem exists_inBinade (hq : 2 ^ (-1022 : Int) ≤ q) : ∃ e, InBinade q e ∧ 2 ^ 52 * 2 ^ e ≤ q := by
  have hpos : 0 < q := (two_zpow_pos _).trans_le hq
  have hlow : (2 : ℚ) ^ Int.log 2 q ≤ q := Int.zpow_log_le_self one_lt_two hpos
  have hhigh : q < (2 : ℚ) ^ (Int.log 2 q + 1) := Int.lt_zpow_succ_log_self one_lt_two q
  have hleast : -1022 ≤ Int.log 2 q := (Int.zpow_le_iff_le_log one_lt_two hpos).mp hq
  generalize Int.log 2 q = l at *
  have hl : (2 : ℚ) ^ 52 * 2 ^ (l - 52) = 2 ^ l := by
    rw [← zpow_natCast, ← zpow_add₀ two_ne_zero]
    congr 1
    omega
  have hl' : (2 : ℚ) ^ 53 * 2 ^ (l - 52) = 2 ^ (l + 1) := by
    rw [← zpow_natCast, ← zpow_add₀ two_ne_zero]
    congr 1
    omega
  refine ⟨l - 52, ⟨hpos.le, by omega, by rwa [hl'], .inl (by rwa [hl])⟩, by rwa [hl]⟩

/-- The closest canonical number is half a unit of the binade away, or nearer. -/
theorem Closest.relative (h : Closest q m e) (hq : 2 ^ (-1022 : Int) ≤ q) :
    |(m : ℚ) * 2 ^ e - q| ≤ roundoff * q := by
  obtain ⟨t, hbinade, hge⟩ := exists_inBinade hq
  have hpos := two_zpow_pos t
  obtain ⟨r, rfl⟩ : ∃ r, q = r * 2 ^ t := ⟨q / 2 ^ t, (div_mul_cancel₀ q hpos.ne').symm⟩
  have hr : 2 ^ 52 ≤ r := le_of_mul_le_mul_right hge hpos
  have hnear : |((⌊r + 1 / 2⌋₊ : ℕ) : ℚ) - r| ≤ 1 / 2 := by
    have hle := Nat.floor_le (by linarith : 0 ≤ r + 1 / 2)
    have hlt := Nat.lt_floor_add_one (r + 1 / 2)
    exact abs_le.mpr ⟨by linarith, by linarith⟩
  calc |(m : ℚ) * 2 ^ e - r * 2 ^ t|
      ≤ |((⌊r + 1 / 2⌋₊ : ℕ) : ℚ) * 2 ^ t - r * 2 ^ t| := by
        rw [← carried_value ⌊r + 1 / 2⌋₊]
        exact h.le (hbinade.canonical hnear).2
    _ = |((⌊r + 1 / 2⌋₊ : ℕ) : ℚ) - r| * 2 ^ t := by rw [← sub_mul, abs_mul, abs_of_pos hpos]
    _ ≤ 1 / 2 * 2 ^ t := mul_le_mul_of_nonneg_right hnear hpos.le
    _ = roundoff * (2 ^ 52 * 2 ^ t) := by
      unfold roundoff
      ring
    _ ≤ roundoff * (r * 2 ^ t) := mul_le_mul_of_nonneg_left hge roundoff_pos.le

/-- The nearest double comes from a closest canonical number. -/
theorem Nearest.exists_closest (h : Nearest q x) (hx : x.isFinite = true) (hq : 0 ≤ q) :
    ∃ m e, Closest q m e ∧ value x = m * 2 ^ e := by
  have hratio : q = (q.num.toNat : ℚ) / (q.den : ℚ) := by
    conv_lhs => rw [← Rat.num_div_den q]
    have hnum : (q.num.toNat : Int) = q.num := Int.toNat_of_nonneg (Rat.num_nonneg.mpr hq)
    rw [← Int.cast_natCast q.num.toNat, hnum]
  obtain ⟨m, e, hclosest, hround⟩ := exists_closest_ofRatio .positive q.num.toNat q.den_pos
  have hnear := nearest_ofRatio q.num.toNat q.den_pos
  rw [← hratio] at hclosest hnear
  have he := hclosest.le_iff.mpr (h.finite.mp hx)
  have hu := unpack_pack_signed .positive hclosest.canonical he
  rw [← hround, ← h.unique hnear] at hu
  exact ⟨m, e, hclosest, by rw [value_of_signed hu, apply_positive]⟩

/-- A number that is not below the normal ones is rounded by at most one part in `2 ^ 53`. -/
theorem Nearest.relative (h : Nearest q x) (hx : x.isFinite = true)
    (hq : 2 ^ (-1022 : Int) ≤ q) : |value x - q| ≤ roundoff * q := by
  obtain ⟨m, e, hclosest, hv⟩ := h.exists_closest hx ((two_zpow_pos _).le.trans hq)
  rw [hv]
  exact hclosest.relative hq

theorem Nearest.atLeast_relative (h : Nearest q x) (hq : 2 ^ (-1022 : Int) ≤ q) :
    AtLeast ((1 - roundoff) * q) x := by
  refine ⟨h.unsigned, fun hx => ?_⟩
  have := (abs_le.mp (h.relative hx hq)).1
  linarith

/-- A lower bound passes through a product, up to a rounding. -/
theorem IsMagnitude.mul_atLeast_relative (hx : IsMagnitude x) (hp : p ≤ value x) (hpos : 0 < p)
    (hy : AtLeast q y) (hq : 0 ≤ q) (hn : 2 ^ (-1022 : Int) ≤ p * q) :
    AtLeast ((1 - roundoff) * (p * q)) (x * y) := by
  obtain hym | hyi := magnitude_or_infinity hy.unsigned
  · have hle := mul_le_mul hp (hy.le hym.finite) hq (hpos.le.trans hp)
    refine ((hx.nearest_mul hym).atLeast_relative (hn.trans hle)).mono ?_
    exact mul_le_mul_of_nonneg_left hle (sub_nonneg.mpr roundoff_lt_one.le)
  · exact atLeast_infinity (hx.mul_infinity (hpos.trans_le hp) hyi)

/-! ## A chain of roundings -/

theorem one_sub_mul_le_pow (k : Nat) : 1 - k * roundoff ≤ (1 - roundoff) ^ k := by
  have h := one_add_mul_le_pow (by linarith [roundoff_lt_one] : -2 ≤ -roundoff) k
  rwa [mul_neg, ← sub_eq_add_neg, ← sub_eq_add_neg] at h

/-- What the roundings add can be taken away again. -/
theorem pow_mul_le_one (k : Nat) : (1 + roundoff) ^ k * (1 - k * roundoff) ≤ 1 := by
  have hpos := roundoff_pos
  have hlt := roundoff_lt_one
  calc (1 + roundoff) ^ k * (1 - k * roundoff) ≤ (1 + roundoff) ^ k * (1 - roundoff) ^ k :=
        mul_le_mul_of_nonneg_left (one_sub_mul_le_pow k) (by positivity)
    _ = (1 - roundoff ^ 2) ^ k := by
      rw [← mul_pow]
      ring
    _ ≤ 1 := pow_le_one₀ (by nlinarith) (by nlinarith)

theorem half_le_pow (hk : k ≤ 2 ^ 52) : 1 / 2 ≤ (1 - roundoff) ^ k := by
  have hk : (k : ℚ) ≤ 2 ^ 52 := by exact_mod_cast hk
  refine le_trans ?_ (one_sub_mul_le_pow k)
  unfold roundoff
  linarith

/-- The double is `q` up to `k` roundings, one after the other. -/
structure Within (k : Nat) (q : ℚ) (x : Float) : Prop where
  magnitude : IsMagnitude x
  lower : (1 - roundoff) ^ k * q ≤ value x
  upper : value x ≤ (1 + roundoff) ^ k * q

theorem Within.round (h : Nearest p x) (hx : x.isFinite = true) (hp : 2 ^ (-1022 : Int) ≤ p)
    (hl : (1 - roundoff) ^ k * q ≤ p) (hu : p ≤ (1 + roundoff) ^ k * q) : Within (k + 1) q x := by
  have hpos := roundoff_pos
  have hlt := roundoff_lt_one
  obtain ⟨hlower, hupper⟩ := abs_le.mp (h.relative hx hp)
  refine ⟨⟨hx, h.unsigned⟩, ?_, ?_⟩
  · calc (1 - roundoff) ^ (k + 1) * q = (1 - roundoff) * ((1 - roundoff) ^ k * q) := by ring
      _ ≤ (1 - roundoff) * p := mul_le_mul_of_nonneg_left hl (by linarith)
      _ ≤ value x := by linarith
  · calc value x ≤ (1 + roundoff) * p := by linarith
      _ ≤ (1 + roundoff) * ((1 + roundoff) ^ k * q) := mul_le_mul_of_nonneg_left hu (by linarith)
      _ = (1 + roundoff) ^ (k + 1) * q := by ring

theorem normal_of_half_le (h : 1 / 2 ≤ q) : 2 ^ (-1022 : Int) ≤ q :=
  (zpow_le_zpow_right₀ one_le_two (by norm_num : (-1022 : Int) ≤ -1)).trans (by norm_num; linarith)

theorem Within.half_le (h : Within k q x) (hk : k ≤ 2 ^ 52) (hq : 1 ≤ q) : 1 / 2 ≤ value x :=
  calc 1 / 2 ≤ (1 - roundoff) ^ k := half_le_pow hk
    _ ≤ (1 - roundoff) ^ k * q :=
      le_mul_of_one_le_right (pow_nonneg (by linarith [roundoff_lt_one]) k) hq
    _ ≤ value x := h.lower

/-- One more rounding for a factor. -/
theorem Within.mul (hx : Within k q x) (hk : k ≤ 2 ^ 52) (hq : 1 ≤ q) (hy : StandsFor y n)
    (hn : 0 < n) (hfin : (x * y).isFinite = true) : Within (k + 1) (q * n) (x * y) := by
  have hone : (1 : ℚ) ≤ n := by exact_mod_cast hn
  have hhalf := hx.half_le hk hq
  have hnear := hx.magnitude.nearest_mul (hy.isMagnitude hn)
  rw [hy.value_eq] at hnear
  refine .round hnear hfin (normal_of_half_le (by nlinarith)) ?_ ?_
  · rw [← mul_assoc]
    exact mul_le_mul_of_nonneg_right hx.lower (by linarith)
  · rw [← mul_assoc]
    exact mul_le_mul_of_nonneg_right hx.upper (by linarith)

/-- A product that overflows is infinity, and too large up to the roundings before. -/
theorem Within.mul_overflow (hx : Within k q x) (hy : StandsFor y n) (hn : 0 < n)
    (hinf : (x * y).isFinite = false) : unpack (x * y) = .infinity .positive ∧
      2 ^ 1024 - 2 ^ 970 ≤ (1 + roundoff) ^ k * (q * n) := by
  have hnear := hx.magnitude.nearest_mul (hy.isMagnitude hn)
  rw [hy.value_eq] at hnear
  refine ⟨hnear.unsigned.infinity_of_not_finite hinf, ?_⟩
  refine (not_lt.mp (mt hnear.finite.mpr (Bool.eq_false_iff.mp hinf))).trans ?_
  rw [← mul_assoc]
  exact mul_le_mul_of_nonneg_right hx.upper (Nat.cast_nonneg n)

/-- One more rounding for a divisor. -/
theorem Within.div (hx : Within k (q * n) x) (hk : k ≤ 2 ^ 52) (hq : 1 ≤ q) (hy : StandsFor y n)
    (hn : 0 < n) : Within (k + 1) q (x / y) := by
  have hpos : (0 : ℚ) < n := by exact_mod_cast hn
  have hone : (1 : ℚ) ≤ n := by exact_mod_cast hn
  have hnear := hx.magnitude.nearest_div (hy.isMagnitude hn) (by rwa [hy.value_eq])
  rw [hy.value_eq] at hnear
  have hfin := hnear.isFinite_of_le hx.magnitude
    (div_le_self hx.magnitude.value_nonneg hone)
  have hl : (1 - roundoff) ^ k * q ≤ value x / n := by
    rw [le_div_iff₀ hpos, mul_assoc]
    exact hx.lower
  refine .round hnear hfin (normal_of_half_le (le_trans ?_ hl)) hl ?_
  · exact (half_le_pow hk).trans
      (le_mul_of_one_le_right (pow_nonneg (by linarith [roundoff_lt_one]) k) hq)
  · rw [div_le_iff₀ hpos, mul_assoc]
    exact hx.upper

/-- A thousand factors and divisors leave all but a small part of the number. -/
theorem Within.abs_sub_le (h : Within k q x) (hk : k ≤ 2 ^ 11) (hq : 0 ≤ q) :
    |value x - q| ≤ q / 2 ^ 41 := by
  have hk : k * roundoff ≤ 1 / 2 ^ 42 := by
    have hk : (k : ℚ) ≤ 2 ^ 11 := by exact_mod_cast hk
    unfold roundoff
    linarith
  have hlow : 1 - 1 / 2 ^ 42 ≤ (1 - roundoff) ^ k :=
    le_trans (by linarith) (one_sub_mul_le_pow k)
  have hhigh : (1 + roundoff) ^ k ≤ 1 + 1 / 2 ^ 41 := by
    have hone := pow_mul_le_one k
    have hpos : (0 : ℚ) < (1 + roundoff) ^ k := pow_pos (by linarith [roundoff_pos]) k
    nlinarith
  have hlower := (mul_le_mul_of_nonneg_right hlow hq).trans h.lower
  have hupper := h.upper.trans (mul_le_mul_of_nonneg_right hhigh hq)
  exact abs_le.mpr ⟨by linarith, by linarith⟩

end Calculator.Binary64
