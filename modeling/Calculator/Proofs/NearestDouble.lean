import Calculator.Decimal.Basic
import Calculator.Proofs.Rounding

/-!
# The nearest double

A number is rounded to infinity exactly if it lies beyond the middle between the largest finite
double and the canonical number after it. So a quotient of natural numbers, and with it a decimal
number, becomes the nearest double. Only one double is nearest, since of two neighbours one has
an odd significand.
-/

namespace Calculator.Binary64

open Float.Model (UnpackedFloat Format)
open Float.Model.UnpackedFloat

variable {q : ℚ} {m n : Nat} {e f : Int}

/-! ## Overflow -/

/-- The largest finite double. -/
theorem canonical_largest : Canonical (2 ^ 53 - 1) 971 :=
  ⟨by norm_num, by norm_num, .inl (by norm_num)⟩

/-- The canonical number after it. -/
theorem canonical_next : Canonical (2 ^ 52) 972 := ⟨by norm_num, by norm_num, .inl (le_refl _)⟩

theorem Canonical.le_largest (h : Canonical n f) (hf : f ≤ 971) :
    (n : ℚ) * 2 ^ f ≤ ((2 ^ 53 - 1 : Nat) : ℚ) * 2 ^ (971 : Int) := by
  obtain hlt | rfl := hf.lt_or_eq
  · exact (h.lt_of_exponent_lt canonical_largest hlt).le
  · have hn : n ≤ 2 ^ 53 - 1 := Nat.le_pred_of_lt h.lt
    exact mul_le_mul_of_nonneg_right (by exact_mod_cast hn) (two_zpow_pos _).le

theorem Canonical.next_le (h : Canonical n f) (hf : 972 ≤ f) :
    ((2 ^ 52 : Nat) : ℚ) * 2 ^ (972 : Int) ≤ n * 2 ^ f := by
  obtain hlt | rfl := hf.lt_or_eq
  · exact (canonical_next.lt_of_exponent_lt h hlt).le
  · have hn : 2 ^ 52 ≤ n := h.leading.resolve_right (by norm_num)
    exact mul_le_mul_of_nonneg_right (by exact_mod_cast hn) (two_zpow_pos _).le

/-- Of two neighbours `l` and `l + 2 * p`, what is closest to `q` is on the side of `q`, if it is
not the lower one in the middle between them. -/
theorem le_iff_lt_middle {v l p : ℚ} (hp : 0 < p) (hv : v ≤ l ∨ l + 2 * p ≤ v)
    (hl : |v - q| ≤ |l - q|) (hx : |v - q| ≤ |l + 2 * p - q|) (htie : q = l + p → v ≠ l) :
    v ≤ l ↔ q < l + p := by
  constructor
  · intro hle
    by_contra hq
    have hq : l + p ≤ q := le_of_not_gt hq
    rw [abs_sub_comm, abs_of_nonneg (by linarith)] at hx
    obtain hn | hn := abs_cases (l + 2 * p - q)
    · exact htie (by linarith) (by linarith)
    · linarith
  · intro hq
    by_contra hle
    have hge := hv.resolve_left hle
    rw [abs_of_nonneg (by linarith)] at hl
    obtain hn | hn := abs_cases (l - q) <;> linarith

/-- The bound of the finite doubles is in the middle between the largest one and the next number. -/
theorem exists_half_step : ∃ p : ℚ, 0 < p ∧
    ((2 ^ 52 : Nat) : ℚ) * 2 ^ (972 : Int) =
      ((2 ^ 53 - 1 : Nat) : ℚ) * 2 ^ (971 : Int) + 2 * p ∧
    (2 : ℚ) ^ 1024 - 2 ^ 970 = ((2 ^ 53 - 1 : Nat) : ℚ) * 2 ^ (971 : Int) + p := by
  have hpow : (2 : ℚ) ^ (971 : Int) = 2 * 2 ^ 970 := (zpow_natCast 2 971).trans (pow_succ' 2 970)
  have hpow' : (2 : ℚ) ^ (972 : Int) = 2 ^ 2 * 2 ^ 970 :=
    (zpow_natCast 2 972).trans (pow_add 2 2 970)
  have hbound : (2 : ℚ) ^ 1024 = 2 ^ 54 * 2 ^ 970 := pow_add 2 54 970
  have hpos : ∀ k : Nat, (0 : ℚ) < 2 ^ k := fun k => pow_pos two_pos k
  have hp := hpos 970
  generalize (2 : ℚ) ^ 970 = p at *
  refine ⟨p, hp, ?_, ?_⟩
  · rw [hpow, hpow']
    push_cast
    ring
  · rw [hpow, hbound]
    push_cast
    ring

/-- The exponent of a closest number fits a double exactly below the half way from the largest
finite double to the number after it. -/
theorem Closest.le_iff (h : Closest q n f) : f ≤ 971 ↔ q < 2 ^ 1024 - 2 ^ 970 := by
  have hsmall := h.canonical.le_largest
  have hbig := h.canonical.next_le
  have hlel := h.le canonical_largest
  have hlex := h.le canonical_next
  have heven := h.even canonical_next
  have hinj := h.canonical.inj canonical_largest
  obtain ⟨p, hp, hx, hb⟩ := exists_half_step
  rw [hx] at hbig hlex heven
  rw [hb]
  generalize ((2 ^ 53 - 1 : Nat) : ℚ) * 2 ^ (971 : Int) = l at *
  have htie : q = l + p → (n : ℚ) * 2 ^ f ≠ l := by
    intro hq hv
    have hn := (hinj hv).1
    rw [hv, hq] at heven
    have := heven (by linarith) (by rw [abs_of_pos (by linarith), abs_of_neg (by linarith)]; ring)
    omega
  have hside : (n : ℚ) * 2 ^ f ≤ l ∨ l + 2 * p ≤ n * 2 ^ f := by
    obtain hf | hf := lt_or_ge 971 f
    · exact .inr (hbig hf)
    · exact .inl (hsmall hf)
  rw [← le_iff_lt_middle hp hside hlel hlex htie]
  refine ⟨hsmall, ?_⟩
  intro hv
  by_contra hf
  have hge := hbig (by omega)
  linarith

/-! ## Quotients of natural numbers -/

theorem describes_fraction {num den : Nat} (hden : 0 < den) :
    Describes (.ofMantissaAndAccuracy (num / den) (accuracyOfFraction (num % den) den))
      ((num : ℚ) / den) := by
  have hd : (0 : ℚ) < den := by exact_mod_cast hden
  have hdiv : (num : ℚ) = den * ((num / den : ℕ) : ℚ) + ((num % den : ℕ) : ℚ) := by
    exact_mod_cast (Nat.div_add_mod num den).symm
  have hlt := Nat.mod_lt num hden
  have hq : (num : ℚ) / den = ((num / den : ℕ) : ℚ) + ((num % den : ℕ) : ℚ) / den := by
    conv_lhs => rw [hdiv, add_div, mul_div_cancel_left₀ _ hd.ne']
  rw [hq]
  generalize num / den = whole
  generalize num % den = rest at hlt
  have hfraction : (rest : ℚ) / den < 1 := (div_lt_one hd).mpr (by exact_mod_cast hlt)
  unfold accuracyOfFraction
  split_ifs with hz
  · simp [Describes, ExtendedMantissa.ofMantissaAndAccuracy, hz]
  · have hpos : (0 : ℚ) < rest / den := div_pos (by exact_mod_cast Nat.pos_of_ne_zero hz) hd
    cases ho : compare (2 * rest) den with
    | lt =>
      have hlt : (2 * rest : ℚ) < den := by exact_mod_cast Nat.compare_eq_lt.mp ho
      have hhalf : (rest : ℚ) / den < 1 / 2 := (div_lt_iff₀ hd).mpr (by linarith)
      exact ⟨lt_add_of_pos_right _ hpos, add_lt_add_right hhalf _⟩
    | eq =>
      have heq : (2 * rest : ℚ) = den := by exact_mod_cast Nat.compare_eq_eq.mp ho
      have hhalf : (rest : ℚ) / den = 1 / 2 := (div_eq_iff hd.ne').mpr (by linarith)
      exact congrArg (_ + ·) hhalf
    | gt =>
      have hgt : (den : ℚ) < 2 * rest := by exact_mod_cast Nat.compare_eq_gt.mp ho
      have hhalf : 1 / 2 < (rest : ℚ) / den := (lt_div_iff₀ hd).mpr (by linarith)
      exact ⟨add_lt_add_right hhalf _, add_lt_add_right hfraction _⟩

/-- The quotient of a division is taken far enough: it fills its bits, or has the least exponent. -/
theorem exists_divCore {num den : Nat} (hnum : 0 < num) (hden : 0 < den) (e f : Int) :
    ∃ m g accuracy, divCore .binary64 num e den f = (m, g, accuracy) ∧
      Approximates (num * 2 ^ e / (den * 2 ^ f)) m g accuracy ∧ (2 ^ 52 ≤ m ∨ g ≤ -1074) := by
  have htarget : Format.binary64.targetExponent
      (Float.Model.totalExponent num e - Float.Model.totalExponent den f) =
        max ((num.log2 : Int) + e - den.log2 - f - 53) (-1074) := by
    have hbits : (Format.binary64.mantissaBits : Int) = 53 := rfl
    have hmin : Format.binary64.minExponent = -1074 := rfl
    rw [Format.targetExponent, Float.Model.totalExponent, Float.Model.totalExponent, hbits, hmin]
    omega
  obtain ⟨k, hk⟩ : ∃ k : Nat,
      min (e - f) (max ((num.log2 : Int) + e - den.log2 - f - 53) (-1074)) = e - f - k :=
    ⟨(e - f - min (e - f) (max ((num.log2 : Int) + e - den.log2 - f - 53) (-1074))).toNat,
      by omega⟩
  refine ⟨num * 2 ^ k / den, e - f - k, accuracyOfFraction (num * 2 ^ k % den) den, ?_, ?_, ?_⟩
  · have hshift : (e - f - (e - f - (k : Int))).toNat = k := by omega
    rw [divCore, htarget, hk]
    simp only [hshift, Nat.shiftLeft_eq]
  · have hq : (num : ℚ) * 2 ^ e / (den * 2 ^ f) / 2 ^ (e - f - (k : Int)) =
        ((num * 2 ^ k : Nat) : ℚ) / den := by
      rw [zpow_sub₀ two_ne_zero, zpow_sub₀ two_ne_zero, zpow_natCast]
      push_cast
      field_simp
    rw [Approximates, hq]
    exact describes_fraction hden
  · by_cases hle : e - f - (k : Int) ≤ -1074
    · exact .inr hle
    · left
      have hlog : den.log2 + 53 ≤ num.log2 + k := by omega
      have hd : den < 2 ^ (den.log2 + 1) := Nat.lt_log2_self
      have hn : 2 ^ num.log2 ≤ num := Nat.log2_self_le hnum.ne'
      rw [Nat.le_div_iff_mul_le hden]
      calc 2 ^ 52 * den ≤ 2 ^ 52 * 2 ^ (den.log2 + 1) := Nat.mul_le_mul_left _ hd.le
        _ = 2 ^ (den.log2 + 53) := by
          rw [← pow_add]
          congr 1
          omega
        _ ≤ 2 ^ (num.log2 + k) := Nat.pow_le_pow_right (by norm_num) hlog
        _ = 2 ^ num.log2 * 2 ^ k := pow_add 2 _ _
        _ ≤ num * 2 ^ k := Nat.mul_le_mul_right _ hn

theorem closest_zero : Closest 0 0 (-1074) where
  canonical := canonical_zero
  le hn := by
    have hpos := two_zpow_pos
    simp [mul_nonneg, (hpos _).le]
  even _ _ _ := rfl

theorem shiftToTargetExponent_zero (e : Int) :
    (shiftToTargetExponent .binary64 0 e .exact).1 = ⟨0, false, false⟩ := by
  have hrepeat : ∀ k : Nat,
      k.repeat ExtendedMantissa.shiftRightOne ⟨0, false, false⟩ = ⟨0, false, false⟩ := by
    intro k
    induction k with
    | zero => rfl
    | succ k ih =>
      rw [Nat.repeat, ih]
      rfl
  exact hrepeat _

/-- Zero stays zero, whatever the exponent. -/
theorem roundWithAccuracy_zero (s : Sign) (e : Int) :
    roundWithAccuracy .binary64 s 0 e .exact = .zero s := by
  have hround : ExtendedMantissa.roundedMantissa ⟨0, false, false⟩ = 0 := rfl
  simp only [roundWithAccuracy, shiftToTargetExponent_zero, hround, dite_true]

/-- A quotient is rounded to a closest canonical number. -/
theorem exists_closest_ofRatio (s : Sign) (num : Nat) {den : Nat} (hden : 0 < den) :
    ∃ n f, Closest (num / den) n f ∧ ofRatio s num den = pack (signed s n f) := by
  obtain rfl | hnum := Nat.eq_zero_or_pos num
  · refine ⟨0, -1074, by simpa using closest_zero, ?_⟩
    have hdiv : divCore .binary64 0 0 den 0 =
        (0, (divCore .binary64 0 0 den 0).2.1, Accuracy.exact) := by
      simp [divCore, accuracyOfFraction]
    rw [ofRatio, hdiv]
    simp only [roundWithAccuracy_zero]
    rfl
  · obtain ⟨m, e, accuracy, hdiv, happrox, he⟩ := exists_divCore hnum hden 0 0
    rw [zpow_zero, mul_one, mul_one] at happrox
    obtain ⟨n, f, hclosest, hround⟩ := happrox.round he s
    refine ⟨n, f, hclosest, ?_⟩
    rw [ofRatio, hdiv]
    exact congrArg pack hround

/-! ## The nearest double -/

/-- `x` is the double nearest to `q`, which is not negative: of two that are as near the one with
the even significand, and infinity from the middle between the largest finite double and `2 ^ 1024`
on. -/
structure Nearest (q : ℚ) (x : Float) : Prop where
  unsigned : IsUnsigned x
  finite : x.isFinite = true ↔ q < 2 ^ 1024 - 2 ^ 970
  closest : x.isFinite = true → ∀ y : Float, y.isFinite = true → |value x - q| ≤ |value y - q|
  even : x.isFinite = true → ∀ y : Float, y.isFinite = true → value y ≠ value x →
    |value y - q| = |value x - q| → significand x % 2 = 0

/-- A closest number is at least as near as any finite double, whatever its sign. -/
theorem Closest.le_value (h : Closest q m e) (hq : 0 ≤ q) {y : Float} (hy : y.isFinite = true) :
    |(m : ℚ) * 2 ^ e - q| ≤ |value y - q| ∧
      (value y ≠ m * 2 ^ e → |value y - q| = |(m : ℚ) * 2 ^ e - q| → m % 2 = 0) := by
  obtain ⟨s, n, f, hc, hf, hu⟩ := exists_signed hy
  rw [value_of_signed hu]
  cases s with
  | positive =>
    simp only [Sign.apply, Int.cast_natCast]
    exact ⟨h.le hc, h.even hc⟩
  | negative =>
    -- zero is as near as a negative number
    have hn : (0 : ℚ) ≤ n * 2 ^ f := mul_nonneg (Nat.cast_nonneg n) (two_zpow_pos f).le
    have hzero := h.le canonical_zero
    simp only [Nat.cast_zero, zero_mul, zero_sub, abs_neg, abs_of_nonneg hq] at hzero
    simp only [Sign.apply, Int.cast_neg, Int.cast_natCast, neg_mul]
    have hdist : |-((n : ℚ) * 2 ^ f) - q| = n * 2 ^ f + q := by
      rw [abs_of_nonpos (by linarith)]
      ring
    rw [hdist]
    refine ⟨by linarith, ?_⟩
    intro hne heq
    have hn0 : (n : ℚ) * 2 ^ f = 0 := by linarith
    rw [hn0, neg_zero] at hne
    have heven := h.even canonical_zero
    simp only [Nat.cast_zero, zero_mul, zero_sub, abs_neg, abs_of_nonneg hq] at heven
    exact heven hne (by linarith)

/-- What is packed from a closest number is the nearest double. -/
theorem Closest.nearest (h : Closest q m e) (hq : 0 ≤ q) :
    Nearest q (pack (signed .positive m e)) := by
  by_cases he : e ≤ 971
  · have hu := unpack_pack_signed .positive h.canonical he
    have hv := value_of_signed hu
    simp only [Sign.apply, Int.cast_natCast] at hv
    refine ⟨(isUnsigned_of_signed hu).mpr rfl, ?_, ?_, ?_⟩
    · exact iff_of_true (isFinite_of_signed hu) (h.le_iff.mp he)
    · intro _ y hy
      rw [hv]
      exact (h.le_value hq hy).1
    · intro _ y hy
      rw [hv, significand_of_signed hu]
      exact (h.le_value hq hy).2
  · rw [pack_signed_overflow _ h.canonical (by omega)]
    have hu := unpack_pack_infinity .positive
    have hfin : (pack (.infinity .positive)).isFinite ≠ true :=
      Bool.eq_false_iff.mp (isFinite_of_infinity hu)
    refine ⟨?_, iff_of_false hfin (mt h.le_iff.mpr he), ?_, ?_⟩
    · rw [IsUnsigned, hu]
    · exact fun hx => absurd hx hfin
    · exact fun hx => absurd hx hfin

/-- A quotient of natural numbers is rounded to the nearest double. -/
theorem nearest_ofRatio (num : Nat) {den : Nat} (hden : 0 < den) :
    Nearest (num / den) (ofRatio .positive num den) := by
  obtain ⟨n, f, hclosest, hround⟩ := exists_closest_ofRatio .positive num hden
  rw [hround]
  exact hclosest.nearest (by positivity)

/-- Two different numbers with even significands have another one between them. -/
theorem Canonical.exists_between (hm : Canonical m e) (hn : Canonical n f) (hm2 : m % 2 = 0)
    (hn2 : n % 2 = 0) (hlt : (m : ℚ) * 2 ^ e < n * 2 ^ f) :
    Canonical (m + 1) e ∧ (m : ℚ) * 2 ^ e < ((m + 1 : Nat) : ℚ) * 2 ^ e ∧
      ((m + 1 : Nat) : ℚ) * 2 ^ e < n * 2 ^ f := by
  have hpos := two_zpow_pos e
  have hmlt := hm.lt
  have hc : Canonical (m + 1) e := ⟨by omega, hm.least, hm.leading.imp_left (by omega)⟩
  refine ⟨hc, ?_, ?_⟩
  · exact mul_lt_mul_of_pos_right (by exact_mod_cast Nat.lt_succ_self m) hpos
  · obtain hef | rfl | hef := lt_trichotomy e f
    · exact hc.lt_of_exponent_lt hn hef
    · have hmn : m < n := by exact_mod_cast lt_of_mul_lt_mul_right hlt hpos.le
      have hmn : m + 1 < n := by omega
      exact mul_lt_mul_of_pos_right (by exact_mod_cast hmn) hpos
    · exact absurd hlt (hn.lt_of_exponent_lt hm hef).not_gt

variable {x y : Float}

/-- A finite double without sign is a canonical number. -/
theorem exists_positive (hx : x.isFinite = true) (hu : IsUnsigned x) :
    ∃ m e, Canonical m e ∧ e ≤ 971 ∧ unpack x = signed .positive m e ∧ value x = m * 2 ^ e := by
  obtain ⟨s, m, e, hc, he, hunpack⟩ := exists_signed hx
  obtain rfl := (isUnsigned_of_signed hunpack).mp hu
  refine ⟨m, e, hc, he, hunpack, ?_⟩
  rw [value_of_signed hunpack]
  simp [Sign.apply]

theorem Nearest.exists_signed (h : Nearest q x) (hfin : x.isFinite = true) :
    ∃ m e, Canonical m e ∧ e ≤ 971 ∧ unpack x = signed .positive m e ∧ value x = m * 2 ^ e :=
  exists_positive hfin h.unsigned

/-- If a number is nearest, no greater one is. -/
theorem Nearest.not_value_lt (hx : Nearest q x) (hy : Nearest q y) (hfx : x.isFinite = true)
    (hfy : y.isFinite = true) : ¬ value x < value y := by
  intro hlt
  have hxy := hx.closest hfx y hfy
  have hyx := hy.closest hfy x hfx
  have hm2 := hx.even hfx y hfy hlt.ne' (le_antisymm hyx hxy)
  have hn2 := hy.even hfy x hfx hlt.ne (le_antisymm hxy hyx)
  obtain ⟨m, e, hm, he, hux, hvx⟩ := hx.exists_signed hfx
  obtain ⟨n, f, hn, -, huy, hvy⟩ := hy.exists_signed hfy
  rw [significand_of_signed hux] at hm2
  rw [significand_of_signed huy] at hn2
  rw [hvx, hvy] at hlt
  obtain ⟨hc, hlow, hhigh⟩ := hm.exists_between hn hm2 hn2 hlt
  -- the number between them is nearer than both
  have huz := unpack_pack_signed .positive hc he
  have hz := hx.closest hfx _ (isFinite_of_signed huz)
  have hz' := hy.closest hfy _ (isFinite_of_signed huz)
  rw [value_of_signed huz] at hz hz'
  simp only [Sign.apply, Int.cast_natCast, hvx, hvy] at hz hz'
  generalize ((m + 1 : Nat) : ℚ) * 2 ^ e = c at *
  generalize (m : ℚ) * 2 ^ e = a at *
  generalize (n : ℚ) * 2 ^ f = b at *
  obtain hc | hc := abs_cases (c - q)
  · obtain hb | hb := abs_cases (b - q) <;> linarith
  · obtain ha | ha := abs_cases (a - q) <;> linarith

/-- Only one double is nearest. -/
theorem Nearest.unique (hx : Nearest q x) (hy : Nearest q y) : x = y := by
  by_cases hq : q < 2 ^ 1024 - 2 ^ 970
  · have hfx := hx.finite.mpr hq
    have hfy := hy.finite.mpr hq
    have heq : value x = value y :=
      le_antisymm (not_lt.mp (hy.not_value_lt hx hfy hfx)) (not_lt.mp (hx.not_value_lt hy hfx hfy))
    obtain ⟨m, e, hm, -, hux, hvx⟩ := hx.exists_signed hfx
    obtain ⟨n, f, hn, -, huy, hvy⟩ := hy.exists_signed hfy
    obtain ⟨rfl, rfl⟩ := hm.inj hn (by rw [← hvx, heq, hvy])
    exact unpack_inj (hux.trans huy.symm)
  · have hinf : ∀ {z : Float}, Nearest q z → unpack z = .infinity .positive := by
      intro z hz
      have hfin : ¬ (unpack z).isFinite = true := mt hz.finite.mp hq
      have hs := hz.unsigned
      rw [IsUnsigned] at hs
      cases hu : unpack z with
      | infinity s =>
        rw [hu] at hs
        rw [show s = .positive from hs]
      | notANumber => simp [hu] at hs
      | zero s => exact absurd (by rw [hu]; rfl) hfin
      | finite s m e hm => exact absurd (by rw [hu]; rfl) hfin
    exact unpack_inj ((hinf hx).trans (hinf hy).symm)

/-- Nothing is closer to a canonical number than itself. -/
theorem Canonical.closest_self (h : Canonical m e) : Closest (m * 2 ^ e) m e where
  canonical := h
  le _ := by
    rw [sub_self, abs_zero]
    exact abs_nonneg _
  even _ hne heq := by
    rw [sub_self, abs_zero, abs_eq_zero, sub_eq_zero] at heq
    exact absurd heq hne

/-- A finite double without sign is the nearest one to its value. -/
theorem nearest_value (hx : x.isFinite = true) (hu : IsUnsigned x) : Nearest (value x) x := by
  obtain ⟨m, e, hc, he, hunpack, hv⟩ := exists_positive hx hu
  have hself : pack (signed .positive m e) = x :=
    unpack_inj ((unpack_pack_signed .positive hc he).trans hunpack.symm)
  have hnonneg : (0 : ℚ) ≤ m * 2 ^ e := by positivity
  have hnear := hc.closest_self.nearest hnonneg
  rwa [hself, ← hv] at hnear

theorem abs_of_isUnsigned (hx : x.isFinite = true) (hu : IsUnsigned x) : x.abs = x := by
  obtain ⟨m, e, hc, he, hunpack, -⟩ := exists_positive hx hu
  refine unpack_inj ?_
  have habs : unpack x.abs = unpack (pack (unpack x).abs) := rfl
  have hsame : (signed .positive m e).abs = signed .positive m e := by
    unfold signed
    split_ifs <;> rfl
  rw [habs, hunpack, hsame, unpack_pack_signed .positive hc he]

end Calculator.Binary64

namespace Calculator.Decimal

/-- The number written. -/
def value (d : Decimal) : ℚ := d.coefficient * 10 ^ d.exponent

theorem nearest_toFloat (d : Decimal) : Binary64.Nearest d.value d.toFloat := by
  have hten : ∀ k, tenTo k = 10 ^ k := fun k => rfl
  have hpos : 0 < tenTo (-d.exponent).toNat := by
    rw [hten]
    positivity
  have hv : d.value = ((d.coefficient * tenTo d.exponent.toNat : Nat) : ℚ) /
      (tenTo (-d.exponent).toNat : Nat) := by
    rw [value, hten, hten]
    push_cast
    obtain ⟨k, hk | hk⟩ := d.exponent.eq_nat_or_neg
    · simp [hk]
    · simp [hk, div_eq_mul_inv]
  rw [hv]
  exact Binary64.nearest_ofRatio _ hpos

end Calculator.Decimal
