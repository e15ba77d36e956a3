import Calculator.Proofs.Signs

/-!
# Correct rounding

A product and a quotient of doubles without sign is the double nearest to the exact result, and so
is a sum or a difference of any two finite doubles that is positive. A sum is infinite exactly if
the exact one is too large, whatever its sign. A natural number becomes the double nearest to it.
Finite doubles are ordered like the numbers they stand for.
-/

namespace Calculator.Binary64

open Float.Model (UnpackedFloat Format)
open Float.Model.UnpackedFloat

variable {q : ℚ} {m n : Nat} {e f : Int} {x y : Float}

/-! ## Exact numbers -/

/-- A significand below `2 ^ 53` is shifted until its leading bit is set. -/
theorem exists_canonical (hm : m < 2 ^ 53) (he : -1074 ≤ e) :
    ∃ n f, Canonical n f ∧ f ≤ e ∧ (m : ℚ) * 2 ^ e = n * 2 ^ f := by
  obtain ⟨k, rfl⟩ : ∃ k : Nat, e = k - 1074 := ⟨(e + 1074).toNat, by omega⟩
  induction k generalizing m with
  | zero => exact ⟨m, _, ⟨hm, he, .inr (by simp)⟩, le_rfl, rfl⟩
  | succ k ih =>
    by_cases hl : 2 ^ 52 ≤ m
    · exact ⟨m, _, ⟨hm, he, .inl hl⟩, le_rfl, rfl⟩
    · obtain ⟨n, f, hc, hf, hv⟩ := ih (m := 2 * m) (by omega) (by omega)
      refine ⟨n, f, hc, by omega, hv ▸ ?_⟩
      have hexp : ((k + 1 : Nat) : Int) - 1074 = (k - 1074) + 1 := by omega
      rw [hexp, zpow_add_one₀ two_ne_zero]
      push_cast
      ring

/-- The number is a canonical one, perhaps with an exponent that no double has. -/
def Representable (q : ℚ) : Prop := ∃ m e, Canonical m e ∧ q = m * 2 ^ e

theorem representable_scaled (hm : m < 2 ^ 53) (he : -1074 ≤ e) : Representable (m * 2 ^ e) := by
  obtain ⟨n, f, hc, -, hv⟩ := exists_canonical hm he
  exact ⟨n, f, hc, hv⟩

/-! ## Rounding an exact result -/

theorem approximates_exact (m : Nat) (e : Int) : Approximates (m * 2 ^ e) m e .exact := by
  rw [Approximates, mul_div_cancel_right₀ _ (two_zpow_pos e).ne']
  rfl

/-- What is packed from a closest number is finite exactly below the bound of the finite doubles. -/
theorem Closest.isFinite_iff (h : Closest q m e) (s : Sign) :
    (pack (signed s m e)).isFinite = true ↔ q < 2 ^ 1024 - 2 ^ 970 := by
  rw [← h.le_iff]
  constructor
  · intro hfin
    by_contra he
    rw [pack_signed_overflow s h.canonical (by omega),
      isFinite_of_infinity (unpack_pack_infinity s)] at hfin
    cases hfin
  · intro he
    exact isFinite_of_signed (unpack_pack_signed s h.canonical he)

/-- `m · 2 ^ e` is rounded to a closest canonical number, with its sign. -/
theorem exists_closest_ofScaled (s : Sign) (m : Nat) (e : Int) :
    ∃ n f, Closest (m * 2 ^ e) n f ∧ ofScaled s m e = pack (signed s n f) := by
  obtain ⟨k, hk⟩ : ∃ k, (e - max (m.log2 + e - 52) (-1074)).toNat = k := ⟨_, rfl⟩
  have hround : ofScaled s m e =
      pack (roundWithAccuracy .binary64 s (m * 2 ^ k) (e - k) .exact) := by
    simp only [ofScaled, UnpackedFloat.round, decreaseExponent, targetExponent_eq, hk,
      Nat.shiftLeft_eq]
  rw [hround]
  obtain rfl | hm := Nat.eq_zero_or_pos m
  · rw [Nat.zero_mul, roundWithAccuracy_zero, Nat.cast_zero, zero_mul]
    exact ⟨0, -1074, closest_zero, rfl⟩
  · have hv : (m : ℚ) * 2 ^ e = ((m * 2 ^ k : Nat) : ℚ) * 2 ^ (e - k) := by
      rw [zpow_sub₀ two_ne_zero, zpow_natCast]
      push_cast
      field_simp
    have hfull : 2 ^ 52 ≤ m * 2 ^ k ∨ e - k ≤ -1074 := by
      by_cases hleast : e - k ≤ -1074
      · exact .inr hleast
      · -- the shift is as far as the leading bit
        left
        have hlog : 52 ≤ m.log2 + k := by omega
        calc 2 ^ 52 ≤ 2 ^ (m.log2 + k) := Nat.pow_le_pow_right two_pos hlog
          _ = 2 ^ m.log2 * 2 ^ k := pow_add 2 _ _
          _ ≤ m * 2 ^ k := Nat.mul_le_mul_right _ (Nat.log2_self_le hm.ne')
    obtain ⟨n, f, hclosest, hr⟩ := (approximates_exact (m * 2 ^ k) (e - k)).round hfull s
    rw [hv]
    exact ⟨n, f, hclosest, congrArg pack hr⟩

/-- `m · 2 ^ e` is rounded to the nearest double. -/
theorem nearest_ofScaled (m : Nat) (e : Int) : Nearest (m * 2 ^ e) (ofScaled .positive m e) := by
  obtain ⟨n, f, hclosest, hround⟩ := exists_closest_ofScaled .positive m e
  rw [hround]
  exact hclosest.nearest (by positivity)

/-- An integer significand is rounded with its sign. -/
theorem pack_normalize (k : Int) (e : Int) :
    pack (UnpackedFloat.normalize .binary64 k e .positive) =
      ofScaled (if k < 0 then .negative else .positive) k.natAbs e := by
  obtain hlt | rfl | hgt := lt_trichotomy k 0
  · have hc : compare k 0 = .lt := Int.compare_eq_lt.mpr hlt
    have habs : (-k).toNat = k.natAbs := by omega
    simp only [UnpackedFloat.normalize, hc, if_pos hlt, habs]
    rfl
  · have hround : UnpackedFloat.round .binary64 .positive 0 e = .zero .positive := by
      simp only [UnpackedFloat.round, decreaseExponent, Nat.zero_shiftLeft, roundWithAccuracy_zero]
    rw [if_neg (lt_irrefl 0), Int.natAbs_zero, ofScaled, hround]
    rfl
  · have hc : compare k 0 = .gt := Int.compare_eq_gt.mpr hgt
    have habs : k.toNat = k.natAbs := by omega
    simp only [UnpackedFloat.normalize, hc, if_neg hgt.not_gt, habs]
    rfl

/-- What is packed from a significand shifted to a smaller exponent. -/
theorem shift_value (m : Nat) {c e : Int} (hc : c ≤ e) :
    ((m <<< (e - c).toNat : Nat) : ℚ) * 2 ^ c = m * 2 ^ e := by
  obtain ⟨k, rfl⟩ : ∃ k : Nat, e = c + k := ⟨(e - c).toNat, by omega⟩
  have hk : (c + k - c).toNat = k := by omega
  rw [hk, Nat.shiftLeft_eq, zpow_add₀ two_ne_zero, zpow_natCast]
  push_cast
  ring

/-! ## Products and quotients -/

/-- A product is rounded to a closest canonical number. -/
theorem exists_closest_mul (hx : x.isFinite = true) (hy : y.isFinite = true) :
    ∃ s n f, Closest |value x * value y| n f ∧ x * y = pack (signed s n f) ∧
      (IsUnsigned x → IsUnsigned y → s = .positive) := by
  obtain ⟨s, m, e, hm, -, hux⟩ := exists_signed hx
  obtain ⟨t, n, f, hn, -, huy⟩ := exists_signed hy
  have hmul : x * y = pack (mul .binary64 (unpack x) (unpack y)) := rfl
  have hv : |value x * value y| = m * 2 ^ e * (n * 2 ^ f) := by
    rw [abs_mul, value_of_signed hux, value_of_signed huy, abs_apply, abs_apply]
  have hsign : s = .positive → t = .positive → s * t = .positive := by
    rintro rfl rfl
    rfl
  rw [hmul, hv, isUnsigned_of_signed hux, isUnsigned_of_signed huy, hux, huy]
  obtain rfl | hm0 := Nat.eq_zero_or_pos m
  · rw [Nat.cast_zero, zero_mul, zero_mul, signed_zero]
    refine ⟨s * t, 0, -1074, closest_zero, ?_, hsign⟩
    unfold signed
    split_ifs <;> rfl
  · obtain rfl | hn0 := Nat.eq_zero_or_pos n
    · rw [Nat.cast_zero, zero_mul, mul_zero, signed_zero, signed_eq_finite hm0]
      exact ⟨s * t, 0, -1074, closest_zero, rfl, hsign⟩
    · have hprod : (m : ℚ) * 2 ^ e * (n * 2 ^ f) = ((m * n : Nat) : ℚ) * 2 ^ (e + f) := by
        rw [zpow_add₀ two_ne_zero]
        push_cast
        ring
      -- one leading bit is enough, and without any both exponents are least
      have hfull : 2 ^ 52 ≤ m * n ∨ e + f ≤ -1074 := by
        obtain hm52 | rfl := hm.leading
        · exact .inl (hm52.trans (Nat.le_mul_of_pos_right m hn0))
        · obtain hn52 | rfl := hn.leading
          · exact .inl (hn52.trans (Nat.le_mul_of_pos_left n hm0))
          · exact .inr (by norm_num)
      obtain ⟨k, g, hclosest, hround⟩ := (approximates_exact (m * n) (e + f)).round hfull (s * t)
      rw [hprod, signed_eq_finite hm0, signed_eq_finite hn0]
      exact ⟨s * t, k, g, hclosest, congrArg pack hround, hsign⟩

/-- A quotient is rounded to a closest canonical number. -/
theorem exists_closest_div (hx : x.isFinite = true) (hy : y.isFinite = true) (h : value y ≠ 0) :
    ∃ s n f, Closest |value x / value y| n f ∧ x / y = pack (signed s n f) ∧
      (IsUnsigned x → IsUnsigned y → s = .positive) := by
  obtain ⟨s, m, e, -, -, hux⟩ := exists_signed hx
  obtain ⟨t, n, f, -, -, huy⟩ := exists_signed hy
  have hdiv : x / y = pack (div .binary64 (unpack x) (unpack y)) := rfl
  have hv : |value x / value y| = m * 2 ^ e / (n * 2 ^ f) := by
    rw [abs_div, value_of_signed hux, value_of_signed huy, abs_apply, abs_apply]
  have hsign : s = .positive → t = .positive → s / t = .positive := by
    rintro rfl rfl
    rfl
  have hn0 : 0 < n := by
    refine Nat.pos_of_ne_zero ?_
    rintro rfl
    rw [value_of_signed huy, apply_zero] at h
    exact h rfl
  rw [hdiv, hv, isUnsigned_of_signed hux, isUnsigned_of_signed huy, hux, huy,
    signed_eq_finite hn0]
  obtain rfl | hm0 := Nat.eq_zero_or_pos m
  · rw [signed_zero, Nat.cast_zero, zero_mul, zero_div]
    exact ⟨s / t, 0, -1074, closest_zero, rfl, hsign⟩
  · rw [signed_eq_finite hm0]
    obtain ⟨k, g, accuracy, hcore, happrox, hg⟩ := exists_divCore hm0 hn0 e f
    obtain ⟨l, c, hclosest, hround⟩ := happrox.round hg (s / t)
    have hpack : div .binary64 (.finite s m e hm0) (.finite t n f hn0) =
        roundWithAccuracy .binary64 (s / t) k g accuracy := by
      simp only [div, hcore]
    refine ⟨s / t, l, c, hclosest, ?_, hsign⟩
    rw [hpack, hround]

/-- A product is rounded to the nearest double. -/
theorem IsMagnitude.nearest_mul (hx : IsMagnitude x) (hy : IsMagnitude y) :
    Nearest (value x * value y) (x * y) := by
  obtain ⟨s, n, f, hclosest, hmul, hs⟩ := exists_closest_mul hx.finite hy.finite
  have hnonneg := mul_nonneg hx.value_nonneg hy.value_nonneg
  rw [abs_of_nonneg hnonneg] at hclosest
  rw [hmul, hs hx.unsigned hy.unsigned]
  exact hclosest.nearest hnonneg

/-- A quotient is rounded to the nearest double. -/
theorem IsMagnitude.nearest_div (hx : IsMagnitude x) (hy : IsMagnitude y) (h : 0 < value y) :
    Nearest (value x / value y) (x / y) := by
  obtain ⟨s, n, f, hclosest, hdiv, hs⟩ := exists_closest_div hx.finite hy.finite h.ne'
  have hnonneg := div_nonneg hx.value_nonneg h.le
  rw [abs_of_nonneg hnonneg] at hclosest
  rw [hdiv, hs hx.unsigned hy.unsigned]
  exact hclosest.nearest hnonneg

/-- A product of finite doubles is finite exactly if the exact one is below the bound. -/
theorem isFinite_mul_iff (hx : x.isFinite = true) (hy : y.isFinite = true) :
    (x * y).isFinite = true ↔ |value x * value y| < 2 ^ 1024 - 2 ^ 970 := by
  obtain ⟨s, n, f, hclosest, hmul, -⟩ := exists_closest_mul hx hy
  rw [hmul, hclosest.isFinite_iff]

theorem isFinite_div_iff (hx : x.isFinite = true) (hy : y.isFinite = true) (h : value y ≠ 0) :
    (x / y).isFinite = true ↔ |value x / value y| < 2 ^ 1024 - 2 ^ 970 := by
  obtain ⟨s, n, f, hclosest, hdiv, -⟩ := exists_closest_div hx hy h
  rw [hdiv, hclosest.isFinite_iff]

/-! ## Sums and differences -/

/-- A difference is a sum. -/
theorem sub_eq (x y : Float) : x - y = x + -y := by
  have hsub : x - y = pack (sub .binary64 (unpack x) (unpack y)) := rfl
  have hadd : x + -y = pack (add .binary64 (unpack x) (unpack (-y))) := rfl
  rw [hsub, hadd, unpack_neg]
  cases unpack x with
  | notANumber => rfl
  | infinity s => cases unpack y <;> rfl
  | zero s => cases unpack y <;> rfl
  | finite s m e hm =>
    cases unpack y with
    | finite t n f hn => simp only [sub, add, UnpackedFloat.neg, apply_neg, Int.sub_eq_add_neg]
    | _ => rfl

/-- The sum of two significands with their signs, over the smaller of the exponents. -/
theorem unpacked_add (s t : Sign) (hm : 0 < m) (hn : 0 < n) :
    ∃ (k : Int) (c : Int), ((s.apply m : ℤ) : ℚ) * 2 ^ e + (t.apply n : ℤ) * 2 ^ f = k * 2 ^ c ∧
      add .binary64 (.finite s m e hm) (.finite t n f hn) =
        UnpackedFloat.normalize .binary64 k c .positive := by
  refine ⟨_, min e f, ?_, rfl⟩
  have hs : ∀ (u : Sign) (k : Nat) {g : Int}, min e f ≤ g → ((u.apply k : ℤ) : ℚ) * 2 ^ g =
      (u.apply (k <<< (g - min e f).toNat : Nat) : ℤ) * 2 ^ min e f := by
    intro u k g hg
    have hv := shift_value k hg
    cases u with
    | positive => rw [apply_positive, apply_positive, hv]
    | negative => rw [apply_negative, apply_negative, hv]
  rw [hs s m (min_le_left e f), hs t n (min_le_right e f), ← add_mul]
  push_cast
  rfl

/-- A sum is rounded to a closest canonical number, with the sign of the sum. -/
theorem exists_closest_add (hx : x.isFinite = true) (hy : y.isFinite = true) :
    ∃ s n f, Closest |value x + value y| n f ∧ x + y = pack (signed s n f) ∧
      (0 < value x + value y ∨ IsUnsigned x ∧ value x + value y = 0 → s = .positive) ∧
      (value x + value y < 0 → s = .negative) := by
  obtain ⟨s, m, e, hm, -, hux⟩ := exists_signed hx
  obtain ⟨t, n, f, hn, -, huy⟩ := exists_signed hy
  have hadd : x + y = pack (add .binary64 (unpack x) (unpack y)) := rfl
  rw [hadd, isUnsigned_of_signed hux, value_of_signed hux, value_of_signed huy, hux, huy]
  obtain rfl | hm0 := Nat.eq_zero_or_pos m
  · rw [apply_zero, zero_add, abs_apply, signed_zero]
    obtain rfl | hn0 := Nat.eq_zero_or_pos n
    · -- the sum of two zeros has a sign only if both have it
      rw [apply_zero, signed_zero]
      refine ⟨if s == t then s else .positive, 0, f, hn.closest_self, ?_, ?_,
        fun hneg => absurd hneg (lt_irrefl 0)⟩
      · rw [signed_zero]
        cases s <;> cases t <;> rfl
      · rintro (hpos | ⟨rfl, -⟩)
        · exact absurd hpos (lt_irrefl 0)
        · exact ite_self _
    · refine ⟨t, n, f, hn.closest_self, ?_, ?_, eq_negative_of_neg⟩
      · rw [signed_eq_finite hn0]
        rfl
      · rintro (hpos | ⟨-, hzero⟩)
        · exact eq_positive_of_pos hpos
        · have habs := abs_apply t n f
          rw [hzero, abs_zero] at habs
          have hpos : (0 : ℚ) < n * 2 ^ f := by positivity
          exact absurd habs hpos.ne
  · obtain rfl | hn0 := Nat.eq_zero_or_pos n
    · rw [apply_zero, add_zero, abs_apply, signed_eq_finite hm0, signed_zero]
      refine ⟨s, m, e, hm.closest_self, ?_, ?_, eq_negative_of_neg⟩
      · rw [signed_eq_finite hm0]
        rfl
      · rintro (hpos | ⟨hs, -⟩)
        · exact eq_positive_of_pos hpos
        · exact hs
    · rw [signed_eq_finite hm0, signed_eq_finite hn0]
      obtain ⟨k, c, hv, hsum⟩ := @unpacked_add m n e f s t hm0 hn0
      obtain ⟨l, g, hclosest, hround⟩ :=
        exists_closest_ofScaled (if k < 0 then .negative else .positive) k.natAbs c
      rw [hv, hsum, pack_normalize]
      refine ⟨_, l, g, ?_, hround, ?_, ?_⟩
      · rw [abs_mul, abs_of_pos (two_zpow_pos c), ← Int.cast_abs, Int.abs_eq_natAbs]
        exact hclosest
      · intro hpos
        refine if_neg ?_
        intro hk
        have hneg : (k : ℚ) * 2 ^ c < 0 :=
          mul_neg_of_neg_of_pos (by exact_mod_cast hk) (two_zpow_pos c)
        obtain h | ⟨-, h⟩ := hpos <;> linarith
      · intro hneg
        refine if_pos ?_
        exact_mod_cast (neg_iff_pos_of_mul_neg hneg).mpr (two_zpow_pos c)

/-- A sum that is zero is rounded to a zero. -/
theorem isZero_add (hx : x.isFinite = true) (hy : y.isFinite = true)
    (h : value x + value y = 0) : IsZero (x + y) := by
  obtain ⟨s, n, f, hclosest, hsum, -⟩ := exists_closest_add hx hy
  have hzero := hclosest.le canonical_zero
  rw [h, abs_zero, sub_zero, Nat.cast_zero, zero_mul, sub_self, abs_zero] at hzero
  have hn : (n : ℚ) * 2 ^ f = 0 := abs_eq_zero.mp (le_antisymm hzero (abs_nonneg _))
  obtain rfl : n = 0 := by simpa [(two_zpow_pos f).ne'] using hn
  rw [hsum, signed_zero]
  exact isZero_pack s

/-- A sum of finite doubles is finite exactly if the exact sum is below the bound. -/
theorem isFinite_add_iff (hx : x.isFinite = true) (hy : y.isFinite = true) :
    (x + y).isFinite = true ↔ |value x + value y| < 2 ^ 1024 - 2 ^ 970 := by
  obtain ⟨s, n, f, hclosest, hsum, -⟩ := exists_closest_add hx hy
  rw [hsum, hclosest.isFinite_iff]

/-- A sum that is positive, or that is zero and begins without a sign, is rounded to the nearest
double. -/
theorem nearest_add (hx : x.isFinite = true) (hy : y.isFinite = true)
    (h : 0 < value x + value y ∨ IsUnsigned x ∧ value x + value y = 0) :
    Nearest (value x + value y) (x + y) := by
  obtain ⟨s, n, f, hclosest, hsum, hs⟩ := exists_closest_add hx hy
  have hnonneg : 0 ≤ value x + value y := by
    obtain hpos | ⟨-, hzero⟩ := h
    · exact hpos.le
    · exact hzero.ge
  rw [hsum, hs.1 h]
  rw [abs_of_nonneg hnonneg] at hclosest
  exact hclosest.nearest hnonneg

theorem nearest_sub (hx : x.isFinite = true) (hy : y.isFinite = true)
    (h : 0 < value x - value y ∨ IsUnsigned x ∧ value x - value y = 0) :
    Nearest (value x - value y) (x - y) := by
  have hy' : (-y).isFinite = true := (isFinite_neg y).trans hy
  rw [sub_eq_add_neg, ← value_neg] at h ⊢
  rw [sub_eq]
  exact nearest_add hx hy' h

/-- Without its sign, a difference is rounded to the nearest double. -/
theorem nearest_abs_sub (hx : x.isFinite = true) (hy : y.isFinite = true) :
    Nearest |value x - value y| (x - y).abs := by
  obtain ⟨s, n, f, hclosest, hsum, -⟩ := exists_closest_add hx ((isFinite_neg y).trans hy)
  rw [value_neg, ← sub_eq_add_neg] at hclosest
  rw [sub_eq, hsum, abs_pack_signed s hclosest.canonical]
  exact hclosest.nearest (abs_nonneg _)

/-- A sum is rounded to the nearest double. -/
theorem IsMagnitude.nearest_add (hx : IsMagnitude x) (hy : IsMagnitude y) :
    Nearest (value x + value y) (x + y) := by
  refine Binary64.nearest_add hx.finite hy.finite ?_
  obtain hpos | hzero := (add_nonneg hx.value_nonneg hy.value_nonneg).lt_or_eq
  · exact .inl hpos
  · exact .inr ⟨hx.unsigned, hzero.symm⟩

/-- A difference that is not negative is rounded to the nearest double. -/
theorem IsMagnitude.nearest_sub (hx : IsMagnitude x) (hy : IsMagnitude y)
    (h : value y ≤ value x) : Nearest (value x - value y) (x - y) := by
  refine Binary64.nearest_sub hx.finite hy.finite ?_
  obtain hpos | hzero := (sub_nonneg.mpr h).lt_or_eq
  · exact .inl hpos
  · exact .inr ⟨hx.unsigned, hzero.symm⟩

/-- A number that some double stands for is rounded to this double. -/
theorem Nearest.exact (h : Nearest q x) (hm : m < 2 ^ 53) (he : -1074 ≤ e) (he' : e ≤ 971)
    (hq : q = m * 2 ^ e) : IsMagnitude x ∧ value x = q := by
  obtain ⟨n, f, hc, hf, hv⟩ := exists_canonical hm he
  have hu := unpack_pack_signed .positive hc (hf.trans he')
  have hsame : x = pack (signed .positive n f) := by
    rw [hq, hv] at h
    exact h.unique (hc.closest_self.nearest (by positivity))
  rw [← hsame] at hu
  refine ⟨⟨isFinite_of_signed hu, h.unsigned⟩, ?_⟩
  rw [value_of_signed hu, apply_positive, hq, hv]

/-! ## Order -/

theorem compare_canonical (hm : Canonical m e) (hn : Canonical n f) :
    (compare e f).then (compare m n) = compare ((m : ℚ) * 2 ^ e) (n * 2 ^ f) := by
  obtain hlt | rfl | hlt := lt_trichotomy e f
  · rw [compare_lt_iff_lt.mpr hlt, compare_lt_iff_lt.mpr (hm.lt_of_exponent_lt hn hlt)]
    rfl
  · have hpos := two_zpow_pos e
    rw [compare_eq_iff_eq.mpr rfl]
    obtain hlt | rfl | hlt := lt_trichotomy m n
    · have hv : (m : ℚ) * 2 ^ e < n * 2 ^ e :=
        mul_lt_mul_of_pos_right (by exact_mod_cast hlt) hpos
      rw [compare_lt_iff_lt.mpr hlt, compare_lt_iff_lt.mpr hv]
      rfl
    · rw [compare_eq_iff_eq.mpr rfl, compare_eq_iff_eq.mpr rfl]
      rfl
    · have hv : (n : ℚ) * 2 ^ e < m * 2 ^ e :=
        mul_lt_mul_of_pos_right (by exact_mod_cast hlt) hpos
      rw [compare_gt_iff_gt.mpr hlt, compare_gt_iff_gt.mpr hv]
      rfl
  · rw [compare_gt_iff_gt.mpr hlt, compare_gt_iff_gt.mpr (hn.lt_of_exponent_lt hm hlt)]
    rfl

theorem compare_neg (a b : ℚ) : compare (-a) (-b) = (compare a b).swap := by
  obtain h | rfl | h := lt_trichotomy a b
  · rw [compare_lt_iff_lt.mpr h, compare_gt_iff_gt.mpr (neg_lt_neg h)]
    rfl
  · rw [compare_eq_iff_eq.mpr rfl, compare_eq_iff_eq.mpr rfl]
    rfl
  · rw [compare_gt_iff_gt.mpr h, compare_lt_iff_lt.mpr (neg_lt_neg h)]
    rfl

/-- Zeros are below what is positive, and above what is negative. -/
theorem compare_zero (s t : Sign) (n : Nat) (f : Int) :
    (UnpackedFloat.zero s).compare (signed t n f) = some (compare 0 ((t.apply n : ℚ) * 2 ^ f)) ∧
      (signed t n f).compare (.zero s) = some (compare ((t.apply n : ℚ) * 2 ^ f) 0) := by
  obtain rfl | hn := Nat.eq_zero_or_pos n
  · rw [signed_zero, apply_zero, compare_eq_iff_eq.mpr rfl]
    exact ⟨rfl, rfl⟩
  · have hpos : (0 : ℚ) < n * 2 ^ f := by positivity
    rw [signed_eq_finite hn]
    cases t with
    | positive =>
      rw [apply_positive, compare_lt_iff_lt.mpr hpos, compare_gt_iff_gt.mpr hpos]
      exact ⟨rfl, rfl⟩
    | negative =>
      have hneg := neg_neg_of_pos hpos
      rw [apply_negative, compare_gt_iff_gt.mpr hneg, compare_lt_iff_lt.mpr hneg]
      exact ⟨rfl, rfl⟩

/-- Numbers with the same sign are ordered by their magnitudes, others by their signs. -/
theorem compare_finite (s t : Sign) (hm : 0 < m) (hn : 0 < n) (hcm : Canonical m e)
    (hcn : Canonical n f) :
    (UnpackedFloat.finite s m e hm).compare (.finite t n f hn) =
      some (compare ((s.apply m : ℚ) * 2 ^ e) ((t.apply n : ℚ) * 2 ^ f)) := by
  have ha : (0 : ℚ) < m * 2 ^ e := by positivity
  have hb : (0 : ℚ) < n * 2 ^ f := by positivity
  have hcompare := compare_canonical hcm hcn
  cases s with
  | positive =>
    cases t with
    | positive =>
      rw [apply_positive, apply_positive, ← hcompare]
      rfl
    | negative =>
      rw [apply_positive, apply_negative, compare_gt_iff_gt.mpr ((neg_neg_of_pos hb).trans ha)]
      rfl
  | negative =>
    cases t with
    | positive =>
      rw [apply_negative, apply_positive, compare_lt_iff_lt.mpr ((neg_neg_of_pos ha).trans hb)]
      rfl
    | negative =>
      rw [apply_negative, apply_negative, compare_neg, ← hcompare]
      rfl

/-- Finite doubles are ordered like the numbers that they stand for. -/
theorem compare_eq (hx : x.isFinite = true) (hy : y.isFinite = true) :
    (unpack x).compare (unpack y) = some (compare (value x) (value y)) := by
  obtain ⟨s, m, e, hm, -, hux⟩ := exists_signed hx
  obtain ⟨t, n, f, hn, -, huy⟩ := exists_signed hy
  rw [hux, huy, value_of_signed hux, value_of_signed huy]
  obtain rfl | hm0 := Nat.eq_zero_or_pos m
  · rw [signed_zero, apply_zero]
    exact (compare_zero s t n f).1
  · obtain rfl | hn0 := Nat.eq_zero_or_pos n
    · rw [signed_zero, apply_zero]
      exact (compare_zero t s m e).2
    · rw [signed_eq_finite hm0, signed_eq_finite hn0]
      exact compare_finite s t hm0 hn0 hm hn

theorem lt_iff_value (hx : x.isFinite = true) (hy : y.isFinite = true) :
    x < y ↔ value x < value y := by
  rw [lt_iff, UnpackedFloat.lt, compare_eq hx hy, beq_iff_eq, Option.some.injEq, compare_lt_iff_lt]

theorem le_iff_value (hx : x.isFinite = true) (hy : y.isFinite = true) :
    x ≤ y ↔ value x ≤ value y := by
  rw [le_iff, UnpackedFloat.le, compare_eq hx hy, Option.any_some, ← compare_le_iff_le,
    Ordering.isLE_iff_ne_gt]

/-! ## Natural numbers -/

theorem isMagnitude_one : IsMagnitude 1 := ⟨by decide +kernel, rfl⟩

theorem value_one : value 1 = 1 := by
  have hu : unpack 1 = signed .positive (2 ^ 52) (-52) := rfl
  rw [value_of_signed hu, apply_positive]
  norm_num

/-- A natural number below `2 ^ 53` becomes a double that stands for it. -/
theorem value_ofNat (hn : n < 2 ^ 53) :
    IsMagnitude (Float.ofNat n) ∧ value (Float.ofNat n) = n := by
  have hword : n.toUInt64.toNat = n := UInt64.toNat_ofNat_of_lt' (by rw [UInt64.size]; omega)
  have hexact : n.toUInt64.toFloat = ofScaled .positive n 0 := by
    conv_rhs => rw [← hword]
    exact pack_normalize n.toUInt64.toNat 0
  -- below `2 ^ 53` the machine word is multiplied by a power of ten, the first one
  have hofNat : Float.ofNat n = n.toUInt64.toFloat * 1 := dif_pos ⟨hn, by norm_num⟩
  have hv : (n : ℚ) = n * 2 ^ (0 : Int) := by rw [zpow_zero, mul_one]
  have hnear := nearest_ofScaled n 0
  obtain ⟨hx, hvx⟩ := hnear.exact hn (by norm_num) (by norm_num) rfl
  have hmul := hx.nearest_mul isMagnitude_one
  rw [value_one, mul_one, hvx, ← hv] at hmul
  rw [hofNat, hexact]
  exact hmul.exact hn (by norm_num) (by norm_num) hv

end Calculator.Binary64
