import Calculator.Proofs.Bounds

/-!
# Natural numbers in floating point

Every natural number up to `2 ^ 53` is a double. Sums, differences, products and quotients of such
numbers are exact if the result is such a number too, and rounding to an integer leaves it alone.
Zero may come with a sign, a positive number is one double only.
-/

namespace Calculator.Binary64

open Float.Model.UnpackedFloat

/-- The double stands for the natural number. -/
structure StandsFor (x : Float) (n : Nat) : Prop where
  finite : x.isFinite = true
  value_eq : value x = n

variable {x y : Float} {m n : Nat}

theorem standsFor_one : StandsFor 1 1 := ⟨isMagnitude_one.finite, by rw [value_one, Nat.cast_one]⟩

theorem standsFor_ofNat (hn : n < 2 ^ 53) : StandsFor (.ofNat n) n :=
  ⟨(value_ofNat hn).1.finite, (value_ofNat hn).2⟩

/-! ## What the double tells -/

theorem StandsFor.isMagnitude (h : StandsFor x n) (hn : 0 < n) : IsMagnitude x :=
  isMagnitude_of_pos h.finite (by rw [h.value_eq]; exact_mod_cast hn)

/-- No two doubles stand for one positive number. -/
theorem StandsFor.eq (hx : StandsFor x n) (hy : StandsFor y n) (hn : 0 < n) : x = y := by
  have hnx := (hx.isMagnitude hn).nearest
  have hny := (hy.isMagnitude hn).nearest
  rw [hx.value_eq] at hnx
  rw [hy.value_eq] at hny
  exact hnx.unique hny

theorem StandsFor.le_iff (hx : StandsFor x m) (hy : StandsFor y n) : x ≤ y ↔ m ≤ n := by
  rw [le_iff_value hx.finite hy.finite, hx.value_eq, hy.value_eq, Nat.cast_le]

theorem StandsFor.lt_iff (hx : StandsFor x m) (hy : StandsFor y n) : x < y ↔ m < n := by
  rw [lt_iff_value hx.finite hy.finite, hx.value_eq, hy.value_eq, Nat.cast_lt]

theorem StandsFor.toNat_eq (h : StandsFor x n) : toNat x = n := by
  rw [toNat_eq_floor, h.value_eq, Nat.floor_natCast]

theorem StandsFor.nonneg (h : StandsFor x n) : 0 ≤ x := by
  rw [le_iff_value (by decide +kernel) h.finite, value_zero, h.value_eq]
  exact Nat.cast_nonneg n

theorem StandsFor.isIntegral (h : StandsFor x n) : isIntegral x = true := by
  have hfinite : (unpack x).isFinite = true := h.finite
  have hv := h.value_eq
  unfold value at hv
  unfold Binary64.isIntegral
  cases hu : unpack x with
  | notANumber | infinity s =>
    rw [hu] at hfinite
    cases hfinite
  | zero s => rfl
  | finite s m e hm =>
    rw [hu] at hv
    have hv : ((s.apply m : ℤ) : ℚ) * 2 ^ e = n := hv
    have habs : (m : ℚ) * 2 ^ e = n := by rw [← abs_apply s m e, hv, Nat.abs_cast]
    refine beq_iff_eq.mpr ?_
    obtain ⟨k, rfl | rfl⟩ := e.eq_nat_or_neg
    · have hneg : (-(k : Int)).toNat = 0 := by omega
      rw [hneg, Nat.shiftLeft_zero, Nat.mod_one]
    · rw [zpow_neg, zpow_natCast, ← div_eq_mul_inv, div_eq_iff (by positivity)] at habs
      have hmul : m = n * 2 ^ k := by exact_mod_cast habs
      rw [neg_neg, Int.toNat_natCast, Nat.one_shiftLeft, hmul, Nat.mul_mod_left]

/-! ## Machine words -/

/-- Rounding towards zero takes the integer part of the magnitude. -/
theorem roundToInt_eq (s : Sign) (m : Nat) (e : Int) :
    roundToInt s m e = s.apply ⌊(m : ℚ) * 2 ^ e⌋₊ := by
  have hle : e - (e - 0).toNat ≤ 0 := by omega
  have happrox : Approximates (m * 2 ^ e) (m <<< (e - 0).toNat) (e - (e - 0).toNat) .exact := by
    change (m : ℚ) * 2 ^ e / 2 ^ (e - (e - 0).toNat) = ((m <<< (e - 0).toNat : Nat) : ℚ)
    rw [div_eq_iff (two_zpow_pos _).ne', Nat.shiftLeft_eq, Nat.cast_mul, Nat.cast_pow,
      Nat.cast_ofNat, mul_assoc, ← zpow_natCast, ← zpow_add₀ two_ne_zero, add_sub_cancel]
  obtain ⟨hlo, hhi⟩ := (happrox.shiftToExponent hle).1.le
  rw [zpow_zero, div_one] at hlo hhi
  have hfloor := (Nat.floor_eq_iff (by positivity)).mpr ⟨hlo, hhi⟩
  rw [hfloor]
  rfl

theorem toInt_signed (a b : Int) (s : Sign) (m : Nat) (e : Int) :
    toInt a b (signed s m e) = s.apply ⌊(m : ℚ) * 2 ^ e⌋₊ := by
  unfold signed
  split_ifs with hm
  · exact roundToInt_eq s m e
  · obtain rfl := Nat.eq_zero_of_not_pos hm
    rw [Nat.cast_zero, zero_mul, Nat.floor_zero]
    cases s <;> rfl

/-- A number that a machine word can hold is converted to it exactly. -/
theorem StandsFor.toNat_toUSize (h : StandsFor x n) (hn : n < USize.size) :
    x.toUSize.toNat = n := by
  have hint : (unpack x).toInt 0 (USize.size - 1) = n := by
    obtain ⟨s, m, e, -, -, hu⟩ := exists_signed h.finite
    have hv := h.value_eq
    rw [value_of_signed hu] at hv
    have habs : (m : ℚ) * 2 ^ e = n := by rw [← abs_apply s m e, hv, Nat.abs_cast]
    rw [hu, toInt_signed, habs, Nat.floor_natCast]
    cases s with
    | positive => rfl
    | negative =>
      -- only zero has a negative sign here
      rw [apply_negative, habs] at hv
      have hzero : (n : ℚ) = 0 := by linarith
      rw [Nat.cast_eq_zero.mp hzero]
      rfl
  have hcast : x.toUSize = .ofNatClamp ((unpack x).toInt 0 (USize.size - 1)).toNat := rfl
  rw [hcast, hint, Int.toNat_natCast, USize.toNat_ofNatClamp_of_lt hn]

/-! ## Exact results -/

theorem IsZero.standsFor (h : IsZero x) : StandsFor x 0 :=
  ⟨h.value_eq.1, by rw [h.value_eq.2, Nat.cast_zero]⟩

/-- The floor of a zero or of a double without sign is a natural number. -/
theorem standsFor_floor (h : IsZero x ∨ IsMagnitude x) : StandsFor (floor x) ⌊value x⌋₊ := by
  obtain hzero | hmag := h
  · rw [hzero.floor_eq, hzero.value_eq.2, Nat.floor_zero]
    exact hzero.standsFor
  · obtain ⟨hfloor, hv⟩ := value_floor hmag
    exact ⟨hfloor.finite, hv⟩

/-- A natural number is rounded to itself. -/
theorem Nearest.standsFor (h : Nearest n x) (hn : n ≤ 2 ^ 53) : StandsFor x n := by
  obtain hlt | rfl := hn.lt_or_eq
  · obtain ⟨hx, hv⟩ := h.exact (e := 0) hlt (by norm_num) (by norm_num) (by rw [zpow_zero, mul_one])
    exact ⟨hx.finite, hv⟩
  · obtain ⟨hx, hv⟩ := h.exact (m := 2 ^ 52) (e := 1) (by norm_num) (by norm_num) (by norm_num)
      (by norm_num)
    exact ⟨hx.finite, hv⟩

/-- A sum that is a natural number is exact, whatever the signs. -/
theorem standsFor_add (hx : x.isFinite = true) (hy : y.isFinite = true)
    (hv : value x + value y = n) (hn : n ≤ 2 ^ 53) : StandsFor (x + y) n := by
  obtain rfl | hpos := Nat.eq_zero_or_pos n
  · rw [Nat.cast_zero] at hv
    exact (isZero_add hx hy hv).standsFor
  · have hnear := nearest_add hx hy (.inl (by rw [hv]; exact_mod_cast hpos))
    rw [hv] at hnear
    exact hnear.standsFor hn

theorem StandsFor.add (hx : StandsFor x m) (hy : StandsFor y n) (h : m + n ≤ 2 ^ 53) :
    StandsFor (x + y) (m + n) :=
  standsFor_add hx.finite hy.finite (by rw [hx.value_eq, hy.value_eq, Nat.cast_add]) h

theorem StandsFor.sub (hx : StandsFor x m) (hy : StandsFor y n) (h : n ≤ m) (hm : m ≤ 2 ^ 53) :
    StandsFor (x - y) (m - n) := by
  have hv : value x + value (-y) = (m - n : Nat) := by
    rw [value_neg, hx.value_eq, hy.value_eq, Nat.cast_sub h, sub_eq_add_neg]
  rw [sub_eq]
  exact standsFor_add hx.finite ((isFinite_neg y).trans hy.finite) hv ((Nat.sub_le m n).trans hm)

theorem StandsFor.mul (hx : StandsFor x m) (hy : StandsFor y n) (hm : 0 < m) (hn : 0 < n)
    (h : m * n ≤ 2 ^ 53) : StandsFor (x * y) (m * n) := by
  have hnear := (hx.isMagnitude hm).nearest_mul (hy.isMagnitude hn)
  rw [hx.value_eq, hy.value_eq, ← Nat.cast_mul] at hnear
  exact hnear.standsFor h

/-- A division that comes out even is exact. -/
theorem StandsFor.div (hx : StandsFor x (m * n)) (hy : StandsFor y n) (hm : 0 < m) (hn : 0 < n)
    (h : m ≤ 2 ^ 53) : StandsFor (x / y) m := by
  have hpos : (0 : ℚ) < n := by exact_mod_cast hn
  have hnear := (hx.isMagnitude (Nat.mul_pos hm hn)).nearest_div (hy.isMagnitude hn)
    (by rwa [hy.value_eq])
  rw [hx.value_eq, hy.value_eq, Nat.cast_mul, mul_div_cancel_right₀ _ hpos.ne'] at hnear
  exact hnear.standsFor h

/-- A positive natural number is its own rounding. -/
theorem StandsFor.round (h : StandsFor x n) (hn : 0 < n) : StandsFor (round x) n := by
  obtain ⟨hx, hv⟩ := value_round (h.isMagnitude hn)
  rw [h.value_eq, floor_add_half] at hv
  exact ⟨hx.finite, hv⟩

end Calculator.Binary64
