import Calculator.Proofs.Neighbours
import Calculator.Proofs.Printing

/-!
# Rounding to significant digits

A decimal is rounded to the nearest number on the grid of its first digits. A double that is
nearest to a decimal with few digits is near enough to it that rounding the double to as many digits
gives a decimal with the same nearest double. So rounding doubles to significant digits a second time
changes nothing.
-/

namespace Calculator

namespace Decimal

open Binary64 (IsMagnitude Nearest)

variable {d : Decimal} {n k : Nat} {x : Float}

/-! ## The number of digits -/

theorem length_digits_le_iff (hk : 0 < k) : d.digits.length ≤ k ↔ d.coefficient < 10 ^ k :=
  Nat.length_toDigits_le_iff (by norm_num) hk

theorem coefficient_lt (d : Decimal) : d.coefficient < 10 ^ d.digits.length :=
  (length_digits_le_iff Nat.length_toDigits_pos).mp le_rfl

theorem le_coefficient (hk : 0 < k) (h : k < d.digits.length) : 10 ^ k ≤ d.coefficient :=
  not_lt.mp (mt (length_digits_le_iff hk).mpr (not_le.mpr h))

/-- What is left before the last digits that rounding takes away. -/
theorem le_coefficient_of_pos (hn : 0 < n) (hd : 0 < d.coefficient) :
    10 ^ (d.digits.length - n) ≤ d.coefficient := by
  obtain hk | hk := Nat.eq_zero_or_pos (d.digits.length - n)
  · rw [hk]
    exact hd
  · exact le_coefficient hk (by omega)

/-! ## The nearest number on a grid -/

theorem value_eq_grid (d : Decimal) (k : Nat) :
    d.value = d.coefficient / 10 ^ k * 10 ^ (d.exponent + k) := by
  rw [value, zpow_add₀ (by norm_num), zpow_natCast]
  field_simp

/-- What is left and what is cut off, in units of the last digit left. -/
theorem truncate_add_cutOff (d : Decimal) (k : Nat) :
    (d.coefficient : ℚ) / 10 ^ k = (d.truncate k).coefficient + d.cutOff k / 10 ^ k := by
  have hparts : (d.coefficient : ℚ) = 10 ^ k * (d.truncate k).coefficient + d.cutOff k := by
    have hdiv : 10 ^ k * (d.truncate k).coefficient + d.cutOff k = d.coefficient :=
      Nat.div_add_mod d.coefficient (tenTo k)
    exact_mod_cast hdiv.symm
  rw [hparts, add_div, mul_div_cancel_left₀ _ (by positivity)]

/-- A coefficient is rounded by at most one half. -/
theorem exists_roundTo (d : Decimal) (n : Nat) :
    ∃ c : Nat, d.roundTo n = ⟨c, d.exponent + (d.digits.length - n : Nat)⟩ ∧
      |(c : ℚ) - d.coefficient / 10 ^ (d.digits.length - n)| ≤ 1 / 2 := by
  simp only [roundTo]
  generalize d.digits.length - n = k
  have hpos : (0 : ℚ) < 10 ^ k := by positivity
  have hsplit := d.truncate_add_cutOff k
  obtain ⟨r, hr⟩ : ∃ r : ℚ, r = d.cutOff k / 10 ^ k := ⟨_, rfl⟩
  rw [← hr] at hsplit
  have hr0 : 0 ≤ r := by
    rw [hr]
    positivity
  have hr1 : r < 1 := by
    rw [hr, div_lt_one hpos]
    exact_mod_cast Nat.mod_lt d.coefficient (Nat.pow_pos (by norm_num : 0 < 10))
  have hlow : |((d.truncate k).coefficient : ℚ) - d.coefficient / 10 ^ k| = r := by
    rw [hsplit, sub_add_cancel_left, abs_neg, abs_of_nonneg hr0]
  have hhigh : |(((d.truncate k).coefficient + 1 : Nat) : ℚ) - d.coefficient / 10 ^ k| = 1 - r := by
    rw [hsplit, Nat.cast_add_one, add_sub_add_left_eq_sub, abs_of_pos (by linarith)]
  have hhalf : (d.cutOff k : ℚ) = r * 10 ^ k := by rw [hr, div_mul_cancel₀ _ hpos.ne']
  cases hc : compare (2 * d.cutOff k) (tenTo k) with
  | lt =>
    have hlt : (2 * d.cutOff k : ℚ) < 10 ^ k := by exact_mod_cast Nat.compare_eq_lt.mp hc
    have hle : r ≤ 1 / 2 := by
      refine le_of_mul_le_mul_right ?_ hpos
      linarith
    exact ⟨_, rfl, hlow.trans_le hle⟩
  | gt =>
    have hlt : (10 ^ k : ℚ) < 2 * d.cutOff k := by exact_mod_cast Nat.compare_eq_gt.mp hc
    have hge : 1 / 2 ≤ r := by
      refine le_of_mul_le_mul_right ?_ hpos
      linarith
    exact ⟨_, rfl, hhigh.trans_le (by linarith)⟩
  | eq =>
    have heq : (2 * d.cutOff k : ℚ) = 10 ^ k := by exact_mod_cast Nat.compare_eq_eq.mp hc
    have htie : r = 1 / 2 := by
      refine mul_right_cancel₀ hpos.ne' ?_
      linarith
    simp only
    split
    · exact ⟨_, rfl, hlow.trans_le htie.le⟩
    · exact ⟨_, rfl, hhigh.trans_le (by linarith)⟩

theorem roundTo_of_le (h : d.digits.length ≤ n) : d.roundTo n = d := by
  have hlow : d.truncate 0 = d := by simp [truncate, tenTo]
  have hcut : d.cutOff 0 = 0 := Nat.mod_one d.coefficient
  have hlt : compare (2 * 0) (tenTo 0) = .lt := rfl
  simp only [roundTo, Nat.sub_eq_zero_of_le h, hcut, hlt, hlow]

/-- Rounding to `n` digits leaves no more of them, but for a carry. -/
theorem coefficient_roundTo_le (d : Decimal) (n : Nat) : (d.roundTo n).coefficient ≤ 10 ^ n := by
  obtain ⟨c, hround, hhalf⟩ := d.exists_roundTo n
  rw [hround]
  have hsize : (d.coefficient : ℚ) / 10 ^ (d.digits.length - n) < 10 ^ n := by
    rw [div_lt_iff₀ (by positivity), ← pow_add]
    exact_mod_cast d.coefficient_lt.trans_le (Nat.pow_le_pow_right (by norm_num) (by omega))
  have hlt : (c : ℚ) < 10 ^ n + 1 := by linarith [(abs_le.mp hhalf).2]
  exact Nat.lt_succ_iff.mp (by exact_mod_cast hlt)

/-- A number is never rounded to its half or below. -/
theorem value_lt_two_mul_roundTo (hn : 0 < n) (hd : 0 < d.coefficient) :
    d.value < 2 * (d.roundTo n).value := by
  obtain ⟨c, hround, hhalf⟩ := d.exists_roundTo n
  have hone : (1 : ℚ) ≤ d.coefficient / 10 ^ (d.digits.length - n) := by
    rw [one_le_div (by positivity)]
    exact_mod_cast le_coefficient_of_pos hn hd
  have hlow := (abs_le.mp hhalf).1
  have hc : (1 : ℚ) ≤ c := by
    have : (0 : ℚ) < c := by linarith
    exact_mod_cast this
  rw [hround, d.value_eq_grid (d.digits.length - n), value, ← mul_assoc]
  exact mul_lt_mul_of_pos_right (by linarith) (by positivity)

/-- No number of the grid is nearer than the rounded one. -/
theorem roundTo_closest (d : Decimal) (n g : Nat) :
    |(d.roundTo n).value - d.value| ≤ |g * 10 ^ (d.roundTo n).exponent - d.value| := by
  obtain ⟨c, hround, hhalf⟩ := d.exists_roundTo n
  rw [hround, d.value_eq_grid (d.digits.length - n), value]
  simp only
  rw [← sub_mul, ← sub_mul, abs_mul, abs_mul]
  refine mul_le_mul_of_nonneg_right ?_ (abs_nonneg _)
  obtain rfl | hne := eq_or_ne g c
  · rfl
  · exact hhalf.trans (Binary64.half_le_abs_of_ne hhalf hne)

/-- In units of the last digit left, a number that is rounded to `n` digits has `n` digits. -/
theorem value_between (hn : 0 < n) (hlt : n < d.digits.length) :
    10 ^ (n - 1) * 10 ^ (d.roundTo n).exponent ≤ d.value ∧
      d.value < 10 ^ n * 10 ^ (d.roundTo n).exponent := by
  obtain ⟨c, hround, -⟩ := d.exists_roundTo n
  rw [hround, d.value_eq_grid (d.digits.length - n)]
  generalize hk : d.digits.length - n = k
  have hten : (0 : ℚ) < 10 ^ (d.exponent + (k : Int)) := by positivity
  refine ⟨mul_le_mul_of_nonneg_right ?_ hten.le, mul_lt_mul_of_pos_right ?_ hten⟩
  · rw [le_div_iff₀ (by positivity), ← pow_add]
    exact_mod_cast le_coefficient (d := d) (k := n - 1 + k) (by omega) (by omega)
  · have hlength : n + k = d.digits.length := by omega
    rw [div_lt_iff₀ (by positivity), ← pow_add, hlength]
    exact_mod_cast d.coefficient_lt

/-! ## Doubles next to decimals with few digits -/

/-- A double nearest to a decimal with at most `n` digits is nearest to a number of every grid on
which it has as many digits. -/
theorem exists_nearest_grid (h : Nearest d.value x) (hx : IsMagnitude x) (hn : 0 < n)
    (hd : d.coefficient ≤ 10 ^ n) {j : Int} (hj : 10 ^ (n - 1) * 10 ^ j ≤ Binary64.value x) :
    ∃ g : Nat, Nearest (g * 10 ^ j) x := by
  obtain hle | hlt := le_or_gt j d.exponent
  · obtain ⟨i, hi⟩ : ∃ i : Nat, d.exponent = j + i := ⟨(d.exponent - j).toNat, by omega⟩
    have hgrid : d.value = (d.coefficient * 10 ^ i : Nat) * 10 ^ j := by
      rw [value, hi, zpow_add₀ (by norm_num), zpow_natCast]
      push_cast
      ring
    exact ⟨_, hgrid ▸ h⟩
  · -- on a coarser grid the least number with `n` digits is not below the decimal
    have hbelow : d.value ≤ 10 ^ (n - 1) * 10 ^ j := by
      obtain ⟨i, rfl⟩ : ∃ i, n = i + 1 := ⟨n - 1, by omega⟩
      calc d.value ≤ 10 ^ (i + 1) * 10 ^ (j - 1) := by
            refine mul_le_mul (by exact_mod_cast hd) ?_ (by positivity) (by positivity)
            exact zpow_le_zpow_right₀ (by norm_num) (by omega)
        _ = 10 ^ i * 10 ^ j := by
            rw [zpow_sub_one₀ (by norm_num)]
            ring
    refine ⟨10 ^ (n - 1), h.of_between hx.finite (.inl ?_)⟩
    push_cast
    exact ⟨hbelow, hj⟩

/-- A double nearest to a decimal with at most `n` digits is nearest to its rounding to `n` digits,
if doubles are finer than so many digits. -/
theorem toFloat_roundTo_ofMagnitude (h : Nearest d.value x) (hx : IsMagnitude x) (hn : 0 < n)
    (hfine : 10 ^ n ≤ 2 ^ 52) (hd : d.coefficient ≤ 10 ^ n) :
    ((ofMagnitude x).roundTo n).toFloat = x := by
  obtain hle | hlt := le_or_gt (ofMagnitude x).digits.length n
  · rw [roundTo_of_le hle, toFloat_ofMagnitude hx.finite hx.unsigned]
  · have hv := value_ofMagnitude hx.finite hx.unsigned
    obtain ⟨hlow, hhigh⟩ := value_between hn hlt
    have hclosest := (ofMagnitude x).roundTo_closest n
    have hnear := ((ofMagnitude x).roundTo n).nearest_toFloat
    obtain ⟨c, j, hround⟩ : ∃ c j, (ofMagnitude x).roundTo n = ⟨c, j⟩ := ⟨_, _, rfl⟩
    rw [hround, hv] at hlow hhigh hclosest
    rw [hround] at hnear ⊢
    have hten : (0 : ℚ) < 10 ^ j := by positivity
    have hfine : Binary64.value x < 2 ^ 52 * 10 ^ j :=
      hhigh.trans_le (mul_le_mul_of_nonneg_right (by exact_mod_cast hfine) hten.le)
    obtain ⟨g, hg⟩ := exists_nearest_grid h hx hn hd hlow
    exact hnear.unique (hg.of_grid hx hten hfine (hclosest g))

end Decimal

namespace Binary64

open Float.Model (UnpackedFloat)
open Float.Model.UnpackedFloat (Sign)

variable {d : Decimal} {n m : Nat} {e : Int} {x : Float} {q : ℚ}

theorem roundToDigits_positive {hm : 0 < m} (hu : unpack x = .finite .positive m e hm) :
    roundToDigits n x = ((Decimal.ofMagnitude x).roundTo n).toFloat := by rw [roundToDigits, hu]

theorem roundToDigits_negative {hm : 0 < m} (hu : unpack x = .finite .negative m e hm) :
    roundToDigits n x = -((Decimal.ofMagnitude x).roundTo n).toFloat := by rw [roundToDigits, hu]

/-- A sign does not matter for the rounding. -/
theorem roundToDigits_neg (n : Nat) (x : Float) : roundToDigits n (-x) = -roundToDigits n x := by
  have hneg := unpack_neg x
  have hsame : Decimal.ofMagnitude (-x) = Decimal.ofMagnitude x := by
    rw [Decimal.ofMagnitude, Decimal.ofMagnitude, hneg]
    cases unpack x <;> rfl
  cases hu : unpack x with
  | finite s m e hm =>
    rw [hu] at hneg
    cases s with
    | positive => rw [roundToDigits_positive hu, roundToDigits_negative hneg, hsame]
    | negative => rw [roundToDigits_negative hu, roundToDigits_positive hneg, hsame, neg_neg_eq]
  | _ =>
    rw [hu] at hneg
    simp only [UnpackedFloat.neg] at hneg
    simp only [roundToDigits, hneg, hu]

/-- A double read from a decimal with at most `n` digits is its own rounding to `n` digits. -/
theorem roundToDigits_toFloat (hn : 0 < n) (hfine : 10 ^ n ≤ 2 ^ 52) (hd : d.coefficient ≤ 10 ^ n) :
    roundToDigits n d.toFloat = d.toFloat := by
  have hnear := d.nearest_toFloat
  cases hu : unpack d.toFloat with
  | finite s m e hm =>
    have hs := hnear.unsigned
    rw [IsUnsigned, hu] at hs
    obtain rfl : s = .positive := hs
    have hfinite : d.toFloat.isFinite = true := congrArg UnpackedFloat.isFinite hu
    rw [roundToDigits_positive hu]
    exact Decimal.toFloat_roundTo_ofMagnitude hnear ⟨hfinite, hnear.unsigned⟩ hn hfine hd
  | _ => simp only [roundToDigits, hu]

/-- Rounding to significant digits a second time changes nothing. -/
theorem roundToDigits_idem (hn : 0 < n) (hfine : 10 ^ n ≤ 2 ^ 52) (x : Float) :
    roundToDigits n (roundToDigits n x) = roundToDigits n x := by
  have hmagnitude := roundToDigits_toFloat hn hfine ((Decimal.ofMagnitude x).coefficient_roundTo_le n)
  cases hu : unpack x with
  | finite s m e hm =>
    cases s with
    | positive => rw [roundToDigits_positive hu, hmagnitude]
    | negative => rw [roundToDigits_negative hu, roundToDigits_neg, hmagnitude]
  | _ =>
    have hself : roundToDigits n x = x := by simp only [roundToDigits, hu]
    rw [hself, hself]

/-- What is rounded to zero is at most half of the least positive double. -/
theorem Nearest.two_mul_le (h : Nearest q 0) (hq : 0 ≤ q) : 2 * q ≤ 2 ^ (-1074 : Int) := by
  obtain ⟨hfinite, hzero⟩ := IsZero.value_eq (x := 0) ⟨.positive, rfl⟩
  obtain ⟨m, e, hclosest, hv⟩ := h.exists_closest hfinite hq
  have hpos := two_zpow_pos (-1074)
  have hle := hclosest.le (n := 1) (f := -1074) ⟨by norm_num, le_rfl, .inr rfl⟩
  rw [← hv, hzero, zero_sub, abs_neg, abs_of_nonneg hq, Nat.cast_one, one_mul] at hle
  obtain ⟨habs, -⟩ | ⟨habs, -⟩ := abs_cases ((2 : ℚ) ^ (-1074 : Int) - q) <;> linarith

/-- No finite double but zero is rounded to zero. -/
theorem toFloat_roundTo_ne_zero (hn : 0 < n) {s : Sign} {hm : 0 < m}
    (hu : unpack x = .finite s m e hm) : ((Decimal.ofMagnitude x).roundTo n).toFloat ≠ 0 := by
  intro hzero
  have hexact : (Decimal.ofMagnitude x).value = m * 2 ^ e := by
    rw [Decimal.ofMagnitude, hu]
    exact Decimal.value_ofScaled m e
  have hleast : (2 : ℚ) ^ (-1074 : Int) ≤ m * 2 ^ e := by
    have hone : (1 : ℚ) ≤ m := by exact_mod_cast hm
    have he := (canonical_of_unpack hu).1.least
    calc (2 : ℚ) ^ (-1074 : Int) ≤ 2 ^ e := zpow_le_zpow_right₀ one_le_two he
      _ ≤ m * 2 ^ e := le_mul_of_one_le_left (two_zpow_pos e).le hone
  have hcoefficient : 0 < (Decimal.ofMagnitude x).coefficient := by
    refine Nat.pos_of_ne_zero fun h0 => ?_
    rw [Decimal.value, h0, Nat.cast_zero, zero_mul] at hexact
    exact absurd hexact (two_zpow_pos _ |>.trans_le hleast).ne
  have hnear := ((Decimal.ofMagnitude x).roundTo n).nearest_toFloat
  have hlt := Decimal.value_lt_two_mul_roundTo hn hcoefficient
  rw [hzero] at hnear
  have hbound := hnear.two_mul_le (by linarith [two_zpow_pos (-1074)])
  linarith

/-- Rounding to significant digits makes no zero, so no negative one. -/
theorem roundToDigits_ne_neg_zero (hn : 0 < n) (hx : x ≠ -0) : roundToDigits n x ≠ -0 := by
  cases hu : unpack x with
  | finite s m e hm =>
    have hne := toFloat_roundTo_ne_zero hn hu
    cases s with
    | positive =>
      rw [roundToDigits_positive hu]
      intro hneg
      have hunsigned := ((Decimal.ofMagnitude x).roundTo n).nearest_toFloat.unsigned
      rw [hneg] at hunsigned
      cases hunsigned
    | negative =>
      rw [roundToDigits_negative hu]
      intro hneg
      refine hne ?_
      rw [← neg_neg_eq (Decimal.toFloat _), hneg, neg_neg_eq]
  | _ =>
    have hself : roundToDigits n x = x := by simp only [roundToDigits, hu]
    rwa [hself]

end Binary64

end Calculator
