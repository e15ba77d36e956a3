import Calculator.Proofs.Doubles

/-!
# Rounding on the grid of a binade

A significand with two more bits tells where a number lies between two neighbours on a grid, and
shifting it keeps that exactly. So the number is rounded once, on the grid of its own binade,
and no canonical number anywhere is nearer than the result.
-/

namespace Calculator.Binary64

open Float.Model (UnpackedFloat Format)
open Float.Model.UnpackedFloat

/-! ## Residual bits -/

/-- The significand and its two residual bits describe `r`: its integer part, and where its
fraction lies relative to zero and a half. -/
def Describes (em : ExtendedMantissa) (r : ℚ) : Prop :=
  match em.roundBit, em.stickyBit with
  | false, false => r = em.mantissa
  | false, true => em.mantissa < r ∧ r < em.mantissa + 1 / 2
  | true, false => r = em.mantissa + 1 / 2
  | true, true => em.mantissa + 1 / 2 < r ∧ r < em.mantissa + 1

variable {em : ExtendedMantissa} {r : ℚ}

theorem Describes.le (h : Describes em r) : em.mantissa ≤ r ∧ r < em.mantissa + 1 := by
  obtain ⟨m, round, sticky⟩ := em
  cases round <;> cases sticky <;> simp only [Describes] at h <;> constructor <;> linarith

theorem Describes.shiftRightOne (h : Describes em r) : Describes em.shiftRightOne (r / 2) := by
  obtain ⟨m, round, sticky⟩ := em
  obtain ⟨half, rfl | rfl⟩ : ∃ half, m = 2 * half ∨ m = 2 * half + 1 := ⟨m / 2, by omega⟩
  · have hs : ExtendedMantissa.shiftRightOne ⟨2 * half, round, sticky⟩ =
        ⟨half, false, round || sticky⟩ := by simp [ExtendedMantissa.shiftRightOne]
    rw [hs]
    cases round <;> cases sticky <;> simp only [Describes, Bool.or_false, Bool.or_true] at h ⊢ <;>
      push_cast at h <;> grind
  · have hs : ExtendedMantissa.shiftRightOne ⟨2 * half + 1, round, sticky⟩ =
        ⟨half, true, round || sticky⟩ := by
      have hdiv : (2 * half + 1) / 2 = half := by omega
      simp [ExtendedMantissa.shiftRightOne, hdiv]
    rw [hs]
    cases round <;> cases sticky <;> simp only [Describes, Bool.or_false, Bool.or_true] at h ⊢ <;>
      push_cast at h <;> grind

theorem Describes.shiftRight (h : Describes em r) (k : Nat) :
    Describes (em >>> k) (r / 2 ^ k) := by
  change Describes (k.repeat ExtendedMantissa.shiftRightOne em) _
  induction k with
  | zero => simpa [Nat.repeat] using h
  | succ k ih =>
    rw [Nat.repeat, pow_succ, ← div_div]
    exact ih.shiftRightOne

/-- The rounded significand is a nearest integer, and the even one of two. -/
theorem Describes.rounded (h : Describes em r) :
    |(em.roundedMantissa : ℚ) - r| ≤ 1 / 2 ∧
      (|(em.roundedMantissa : ℚ) - r| = 1 / 2 → em.roundedMantissa % 2 = 0) := by
  obtain ⟨m, round, sticky⟩ := em
  cases round <;> cases sticky <;> simp only [Describes] at h
  · have he : ExtendedMantissa.roundedMantissa ⟨m, false, false⟩ = m := rfl
    rw [he, h, sub_self, abs_zero]
    norm_num
  · have he : ExtendedMantissa.roundedMantissa ⟨m, false, true⟩ = m := rfl
    rw [he, abs_of_neg (by linarith)]
    exact ⟨by linarith, fun h' => absurd h' (by linarith)⟩
  · -- half way between two integers
    have he : ExtendedMantissa.roundedMantissa ⟨m, true, false⟩ = m + m % 2 := rfl
    rw [he, h]
    refine ⟨?_, fun _ => by omega⟩
    obtain hr | hr := Nat.mod_two_eq_zero_or_one m <;> rw [hr, abs_le] <;> push_cast <;>
      constructor <;> linarith
  · have he : ExtendedMantissa.roundedMantissa ⟨m, true, true⟩ = m + 1 := rfl
    rw [he]
    push_cast
    rw [abs_of_pos (by linarith)]
    exact ⟨by linarith, fun h' => absurd h' (by linarith)⟩

/-! ## The grid of a binade -/

variable {q : ℚ} {m n : Nat} {e f : Int}

/-- No canonical number is nearer to `q` than `m · 2 ^ e`, which has an even significand if another
one is as near. -/
structure Closest (q : ℚ) (m : Nat) (e : Int) : Prop where
  canonical : Canonical m e
  le : ∀ {n f}, Canonical n f → |(m : ℚ) * 2 ^ e - q| ≤ |(n : ℚ) * 2 ^ f - q|
  even : ∀ {n f}, Canonical n f → (n : ℚ) * 2 ^ f ≠ m * 2 ^ e →
    |(n : ℚ) * 2 ^ f - q| = |(m : ℚ) * 2 ^ e - q| → m % 2 = 0

/-- `q` lies in the binade of the numbers with exponent `e`, or below the least one. -/
structure InBinade (q : ℚ) (e : Int) : Prop where
  nonneg : 0 ≤ q
  least : -1074 ≤ e
  lt : q < 2 ^ 53 * 2 ^ e
  ge : 2 ^ 52 * 2 ^ e ≤ q ∨ e = -1074

/-- A canonical number is on the grid of the exponent `e`, or below the binade of `e`. -/
theorem Canonical.onGrid (hn : Canonical n f) (he : -1074 ≤ e) :
    (∃ k : Nat, (n : ℚ) * 2 ^ f = k * 2 ^ e) ∨
      (e ≠ -1074 ∧ (n : ℚ) * 2 ^ f < 2 ^ 52 * 2 ^ e) := by
  by_cases hf : e ≤ f
  · left
    refine ⟨n * 2 ^ (f - e).toNat, ?_⟩
    have hfe : f = ((f - e).toNat : Int) + e := by omega
    conv_lhs => rw [hfe, zpow_add₀ (by norm_num), zpow_natCast]
    push_cast
    ring
  · right
    have hleast := hn.least
    have hbinade : Canonical (2 ^ 52) e := ⟨by norm_num, he, .inl (le_refl _)⟩
    have hlt := hn.lt_of_exponent_lt hbinade (by omega)
    push_cast at hlt
    exact ⟨by omega, hlt⟩

/-- Any other integer is at least as far from `r` as a nearest one. -/
theorem half_le_abs_of_ne {k : Nat} (hm : |(m : ℚ) - r| ≤ 1 / 2) (hk : k ≠ m) :
    1 / 2 ≤ |(k : ℚ) - r| := by
  have hone : (1 : ℚ) ≤ |(k : ℚ) - m| := by
    have hint : (1 : Int) ≤ |(k : Int) - m| := Int.one_le_abs (by omega)
    exact_mod_cast hint
  have htri : |(k : ℚ) - m| ≤ |(k : ℚ) - r| + |(m : ℚ) - r| := by
    have h := abs_sub_le (k : ℚ) r m
    rwa [abs_sub_comm r] at h
  linarith

/-- A nearest integer on the grid of its binade is nearer than every canonical number. -/
theorem InBinade.closest (h : InBinade (r * 2 ^ e) e) (hm : |(m : ℚ) - r| ≤ 1 / 2)
    (heven : |(m : ℚ) - r| = 1 / 2 → m % 2 = 0) (hn : Canonical n f) :
    |(m : ℚ) * 2 ^ e - r * 2 ^ e| ≤ |(n : ℚ) * 2 ^ f - r * 2 ^ e| ∧
      ((n : ℚ) * 2 ^ f ≠ m * 2 ^ e →
        |(n : ℚ) * 2 ^ f - r * 2 ^ e| = |(m : ℚ) * 2 ^ e - r * 2 ^ e| → m % 2 = 0) := by
  have hpos := two_zpow_pos e
  have hscale : ∀ a : ℚ, |a * 2 ^ e - r * 2 ^ e| = |a - r| * 2 ^ e := by
    intro a
    rw [← sub_mul, abs_mul, abs_of_pos hpos]
  have hgrid : ∀ k : Nat, |(m : ℚ) - r| ≤ |(k : ℚ) - r| := by
    intro k
    by_cases hk : k = m
    · rw [hk]
    · exact hm.trans (half_le_abs_of_ne hm hk)
  obtain ⟨k, hk⟩ | ⟨hne, hlt⟩ := hn.onGrid h.least
  · rw [hk, hscale, hscale]
    refine ⟨mul_le_mul_of_nonneg_right (hgrid k) hpos.le, ?_⟩
    intro hother heq
    have hkm : k ≠ m := by
      rintro rfl
      exact hother rfl
    have htie := mul_right_cancel₀ hpos.ne' heq
    exact heven (le_antisymm hm (htie ▸ half_le_abs_of_ne hm hkm))
  · -- the least number of the binade is nearer than one below it
    have hge := h.ge.resolve_right hne
    have hless : |(m : ℚ) * 2 ^ e - r * 2 ^ e| < |(n : ℚ) * 2 ^ f - r * 2 ^ e| := by
      calc |(m : ℚ) * 2 ^ e - r * 2 ^ e| = |(m : ℚ) - r| * 2 ^ e := hscale m
        _ ≤ |((2 ^ 52 : Nat) : ℚ) - r| * 2 ^ e :=
          mul_le_mul_of_nonneg_right (hgrid _) hpos.le
        _ = r * 2 ^ e - 2 ^ 52 * 2 ^ e := by
          rw [← hscale, abs_sub_comm, abs_of_nonneg]
          · push_cast
            ring
          · push_cast
            linarith
        _ < |(n : ℚ) * 2 ^ f - r * 2 ^ e| := by
          rw [abs_sub_comm, abs_of_pos] <;> linarith
    exact ⟨hless.le, fun _ heq => absurd heq hless.ne'⟩

/-- The significand and exponent after a carry out of the significand is shifted back. -/
def carried (m : Nat) (e : Int) : Nat × Int := if m = 2 ^ 53 then (2 ^ 52, e + 1) else (m, e)

theorem carried_value (m : Nat) (e : Int) :
    ((carried m e).1 : ℚ) * 2 ^ (carried m e).2 = m * 2 ^ e := by
  unfold carried
  split_ifs with h
  · rw [h, zpow_add_one₀ (by norm_num)]
    push_cast
    ring
  · rfl

theorem carried_even (h : m % 2 = 0) (e : Int) : (carried m e).1 % 2 = 0 := by
  unfold carried
  split_ifs with hm
  · norm_num
  · exact h

/-- A nearest integer on the grid of its binade is canonical, once carried. -/
theorem InBinade.canonical (h : InBinade (r * 2 ^ e) e) (hm : |(m : ℚ) - r| ≤ 1 / 2) :
    m ≤ 2 ^ 53 ∧ Canonical (carried m e).1 (carried m e).2 := by
  have hpos := two_zpow_pos e
  obtain ⟨hlo, hhi⟩ := abs_le.mp hm
  have hle : m ≤ 2 ^ 53 := by
    have hr : r < 2 ^ 53 := lt_of_mul_lt_mul_right h.lt hpos.le
    have hlt : (m : ℚ) < ((2 ^ 53 + 1 : Nat) : ℚ) := by
      push_cast
      linarith
    have hlt : m < 2 ^ 53 + 1 := by exact_mod_cast hlt
    omega
  have hge : 2 ^ 52 ≤ m ∨ e = -1074 := by
    refine h.ge.imp_left fun hge => ?_
    have hr : 2 ^ 52 ≤ r := le_of_mul_le_mul_right hge hpos
    have hlt : ((2 ^ 52 : Nat) : ℚ) < ((m + 1 : Nat) : ℚ) := by
      push_cast
      linarith
    have hlt : 2 ^ 52 < m + 1 := by exact_mod_cast hlt
    omega
  have hleast := h.least
  refine ⟨hle, ?_⟩
  unfold carried
  split_ifs with hc
  · exact ⟨by norm_num, by omega, .inl (le_refl _)⟩
  · exact ⟨by omega, hleast, hge⟩

theorem InBinade.closest_carried (h : InBinade (r * 2 ^ e) e) (hm : |(m : ℚ) - r| ≤ 1 / 2)
    (heven : |(m : ℚ) - r| = 1 / 2 → m % 2 = 0) :
    Closest (r * 2 ^ e) (carried m e).1 (carried m e).2 where
  canonical := (h.canonical hm).2
  le hn := by
    rw [carried_value]
    exact (h.closest hm heven hn).1
  even hn hne heq := by
    rw [carried_value] at hne heq
    exact carried_even ((h.closest hm heven hn).2 hne heq) e

/-! ## Rounding with an accuracy -/

/-- The significand, exponent and accuracy describe `q`. -/
def Approximates (q : ℚ) (m : Nat) (e : Int) (accuracy : Accuracy) : Prop :=
  Describes (.ofMantissaAndAccuracy m accuracy) (q / 2 ^ e)

/-- The exponent that a number with this significand and exponent is rounded to. -/
theorem targetExponent_eq (m : Nat) (e : Int) :
    Format.binary64.targetExponent (Float.Model.totalExponent m e) =
      max (m.log2 + e - 52) (-1074) := by
  have hbits : (Format.binary64.mantissaBits : Int) = 53 := rfl
  have hmin : Format.binary64.minExponent = -1074 := rfl
  rw [Format.targetExponent, Float.Model.totalExponent, hbits, hmin]
  omega

theorem mantissa_ofMantissaAndAccuracy (m : Nat) (accuracy : Accuracy) :
    (ExtendedMantissa.ofMantissaAndAccuracy m accuracy).mantissa = m := by
  cases accuracy with
  | exact => rfl
  | inexact o => cases o <;> rfl

/-- A significand that fills its bits, or has the least exponent, tells the binade. -/
theorem Approximates.inBinade {accuracy : Accuracy} (h : Approximates q m e accuracy)
    (he : 2 ^ 52 ≤ m ∨ e ≤ -1074) :
    e ≤ max (m.log2 + e - 52) (-1074) ∧ InBinade q (max (m.log2 + e - 52) (-1074)) := by
  have hpos := two_zpow_pos e
  obtain ⟨hlo, hhi⟩ := h.le
  rw [mantissa_ofMantissaAndAccuracy] at hlo hhi
  rw [le_div_iff₀ hpos] at hlo
  rw [div_lt_iff₀ hpos] at hhi
  have hlt : m < 2 ^ (m.log2 + 1) := Nat.lt_log2_self
  refine ⟨?_, (by positivity : (0 : ℚ) ≤ m * 2 ^ e).trans hlo, le_max_right _ _, ?_, ?_⟩
  · obtain hm | he := he
    · have hlog : 52 ≤ m.log2 := (Nat.le_log2 (by omega)).mpr hm
      omega
    · omega
  · have hcast : (m : ℚ) + 1 ≤ 2 ^ (m.log2 + 1) := by exact_mod_cast hlt
    calc q < (m + 1) * 2 ^ e := hhi
      _ ≤ 2 ^ (m.log2 + 1) * 2 ^ e := by gcongr
      _ = (2 : ℚ) ^ ((m.log2 : Int) + 1 + e) := by
        rw [zpow_add₀ (by norm_num), ← Nat.cast_succ, zpow_natCast]
      _ ≤ (2 : ℚ) ^ (53 + max ((m.log2 : Int) + e - 52) (-1074)) :=
        zpow_le_zpow_right₀ (by norm_num) (by omega)
      _ = 2 ^ 53 * 2 ^ max ((m.log2 : Int) + e - 52) (-1074) := by
        rw [zpow_add₀ (by norm_num)]
        norm_cast
  · obtain rfl | hm := Nat.eq_zero_or_pos m
    · right
      have hlog : (Nat.log2 0 : Int) = 0 := rfl
      omega
    · obtain hmax | hmax := max_choice ((m.log2 : Int) + e - 52) (-1074)
      · left
        have hcast : (2 : ℚ) ^ m.log2 ≤ m := by
          exact_mod_cast Nat.log2_self_le hm.ne'
        calc (2 : ℚ) ^ 52 * 2 ^ max ((m.log2 : Int) + e - 52) (-1074)
            = (2 : ℚ) ^ (((52 : Nat) : Int) + ((m.log2 : Int) + e - 52)) := by
              rw [hmax, zpow_add₀ (by norm_num), zpow_natCast]
          _ = (2 : ℚ) ^ ((m.log2 : Int) + e) := by
              congr 1
              omega
          _ = 2 ^ m.log2 * 2 ^ e := by rw [zpow_add₀ (by norm_num), zpow_natCast]
          _ ≤ m * 2 ^ e := by gcongr
          _ ≤ q := hlo
      · exact .inr hmax

/-- Shifting to a greater exponent keeps what is described. -/
theorem Approximates.shiftToExponent {accuracy : Accuracy} (h : Approximates q m e accuracy)
    (he : e ≤ f) :
    Describes (UnpackedFloat.shiftToExponent m e accuracy f).1 (q / 2 ^ f) ∧
      (UnpackedFloat.shiftToExponent m e accuracy f).2 = f := by
  obtain ⟨k, rfl⟩ : ∃ k : Nat, f = e + k := ⟨(f - e).toNat, by omega⟩
  have hk : (e + k - e).toNat = k := by omega
  simp only [UnpackedFloat.shiftToExponent, hk, and_true]
  rw [zpow_add₀ (by norm_num), zpow_natCast, ← div_div]
  exact h.shiftRight k

/-- The second shift of a rounding only takes a carry back. -/
theorem shift_carry (hm : m ≤ 2 ^ 53) (he : -1074 ≤ e) :
    (shiftToTargetExponent .binary64 m e .exact).1.mantissa = (carried m e).1 ∧
      (shiftToTargetExponent .binary64 m e .exact).2 = (carried m e).2 := by
  simp only [shiftToTargetExponent, targetExponent_eq]
  by_cases hc : m = 2 ^ 53
  · have hlog : m.log2 = 53 := by rw [hc, Nat.log2_two_pow]
    have hk : (max ((m.log2 : Int) + e - 52) (-1074) - e).toNat = 1 := by omega
    simp only [UnpackedFloat.shiftToExponent, hk, carried, if_pos hc]
    subst hc
    exact ⟨rfl, rfl⟩
  · have hlog : m.log2 ≤ 52 := by
      by_cases hz : m = 0
      · rw [hz]
        exact Nat.zero_le _
      · have := (Nat.log2_lt hz).mpr (show m < 2 ^ 53 by omega)
        omega
    have hk : (max ((m.log2 : Int) + e - 52) (-1074) - e).toNat = 0 := by omega
    simp only [UnpackedFloat.shiftToExponent, hk, carried, if_neg hc]
    exact ⟨rfl, Int.add_zero e⟩

/-- A described number is rounded to a closest canonical one. -/
theorem Approximates.round {accuracy : Accuracy} (h : Approximates q m e accuracy)
    (he : 2 ^ 52 ≤ m ∨ e ≤ -1074) (s : Sign) :
    ∃ n f, Closest q n f ∧ roundWithAccuracy .binary64 s m e accuracy = signed s n f := by
  obtain ⟨hle, hbinade⟩ := h.inBinade he
  generalize ht : max ((m.log2 : Int) + e - 52) (-1074) = t at hle hbinade
  obtain ⟨hem, hexp⟩ := h.shiftToExponent hle
  obtain ⟨hnear, heven⟩ := hem.rounded
  have hq : q / 2 ^ t * 2 ^ t = q := div_mul_cancel₀ q (two_zpow_pos t).ne'
  rw [← hq] at hbinade
  have hclosest := hbinade.closest_carried hnear heven
  have hcarry := shift_carry (hbinade.canonical hnear).1 hbinade.least
  rw [hq] at hclosest
  refine ⟨_, _, hclosest, ?_⟩
  have hfirst : shiftToTargetExponent .binary64 m e accuracy =
      UnpackedFloat.shiftToExponent m e accuracy t := by
    rw [shiftToTargetExponent, targetExponent_eq, ht]
  simp only [roundWithAccuracy, hfirst, hexp, hcarry.1, hcarry.2, signed, Nat.pos_iff_ne_zero,
    ne_eq, dite_not]

end Calculator.Binary64
