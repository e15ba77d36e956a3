import Calculator.Proofs.RelativeError

/-!
# What is rounded to a double

A number is at most half a unit in the last place away from the double that it is rounded to, and
whatever lies between the two is rounded to this double as well. So of the numbers on a grid that is
not much finer than the doubles, the one next to a double is rounded to it if any of them is.
-/

namespace Calculator.Binary64

open Float.Model.UnpackedFloat

variable {p q r u : ℚ} {m c g : Nat} {e : Int} {x : Float}

/-- What lies between a number and the double nearest to it has the same nearest double. -/
theorem Nearest.of_between (h : Nearest q x) (hx : x.isFinite = true)
    (hp : q ≤ p ∧ p ≤ value x ∨ value x ≤ p ∧ p ≤ q) : Nearest p x := by
  have hsplit : |value x - q| = |value x - p| + |p - q| := by
    obtain ⟨hlo, hhi⟩ | ⟨hlo, hhi⟩ := hp
    · rw [abs_of_nonneg, abs_of_nonneg, abs_of_nonneg] <;> linarith
    · rw [abs_of_nonpos, abs_of_nonpos, abs_of_nonpos] <;> linarith
  have hvia : ∀ y, |value y - q| ≤ |value y - p| + |p - q| := fun y => abs_sub_le _ _ _
  refine ⟨h.unsigned, iff_of_true hx ?_, ?_, ?_⟩
  · obtain ⟨-, hle⟩ | ⟨-, hle⟩ := hp
    · exact hle.trans_lt (IsMagnitude.value_lt ⟨hx, h.unsigned⟩)
    · exact hle.trans_lt (h.finite.mp hx)
  · intro _ y hy
    have hclosest := h.closest hx y hy
    have := hvia y
    linarith
  · intro _ y hy hne heq
    refine h.even hx y hy hne (le_antisymm ?_ (h.closest hx y hy))
    have := hvia y
    linarith

/-- The numbers of a grid up to `2 ^ 53` units are representable. -/
theorem representable_grid (hm : m ≤ 2 ^ 53) (he : -1074 ≤ e) : Representable (m * 2 ^ e) := by
  obtain hlt | rfl := hm.lt_or_eq
  · exact representable_scaled hlt he
  · refine ⟨2 ^ 52, e + 1, ⟨by norm_num, by omega, .inl le_rfl⟩, ?_⟩
    rw [zpow_add_one₀ two_ne_zero]
    push_cast
    ring

/-- A number is at most half a unit away from a closest canonical one, which has an even significand
if it is as much as that. -/
theorem Closest.half_unit (h : Closest (r * 2 ^ e) m e) (hr : 0 ≤ r) :
    |(m : ℚ) - r| ≤ 1 / 2 ∧ (|(m : ℚ) - r| = 1 / 2 → m % 2 = 0) := by
  have hpos := two_zpow_pos e
  have hscale : ∀ k : Nat, |(k : ℚ) * 2 ^ e - r * 2 ^ e| = |(k : ℚ) - r| * 2 ^ e := by
    intro k
    rw [← sub_mul, abs_mul, abs_of_pos hpos]
  have hgrid : ∀ k : Nat, k ≤ 2 ^ 53 → k ≠ m →
      |(m : ℚ) - r| ≤ |(k : ℚ) - r| ∧ (|(k : ℚ) - r| = |(m : ℚ) - r| → m % 2 = 0) := by
    intro k hk hne
    obtain ⟨n, f, hc, hv⟩ := representable_grid hk h.canonical.least
    have hle := h.le hc
    have heven := h.even hc
    rw [← hv, hscale, hscale] at hle heven
    refine ⟨le_of_mul_le_mul_right hle hpos, fun heq => heven ?_ (by rw [heq])⟩
    exact fun hkm => hne (by exact_mod_cast mul_right_cancel₀ hpos.ne' hkm)
  have hup := hgrid (m + 1) h.canonical.lt (Nat.succ_ne_self m)
  push_cast at hup
  obtain ⟨habs, hside⟩ | ⟨habs, hside⟩ := abs_cases ((m : ℚ) - r)
  · -- the number is below, so that the grid goes on downwards
    rw [habs]
    obtain rfl | hm := Nat.eq_zero_or_pos m
    · rw [Nat.cast_zero, zero_sub] at hside ⊢
      exact ⟨by linarith, fun htie => by linarith⟩
    · have hdown := hgrid (m - 1) (by have := h.canonical.lt; omega) (by omega)
      rw [Nat.cast_sub hm, Nat.cast_one, habs] at hdown
      obtain hd | hd := abs_cases ((m : ℚ) - 1 - r)
      · exact absurd hdown.1 (by linarith)
      · exact ⟨by linarith, fun htie => hdown.2 (by linarith)⟩
  · rw [habs] at hup ⊢
    obtain hu | hu := abs_cases ((m : ℚ) + 1 - r)
    · exact ⟨by linarith, fun htie => hup.2 (by linarith)⟩
    · exact absurd hup.1 (by linarith)

/-- Below the normal numbers a grid of the doubles is symmetric around each of them. -/
theorem Closest.of_half_unit (h : Canonical m (-1074)) (hr : 0 ≤ r) (hm : |(m : ℚ) - r| ≤ 1 / 2)
    (heven : |(m : ℚ) - r| = 1 / 2 → m % 2 = 0) :
    Closest (r * 2 ^ (-1074 : Int)) m (-1074) := by
  have hlt := h.lt
  have hone : (m : ℚ) + 1 ≤ 2 ^ 53 := by exact_mod_cast hlt
  have hbinade : InBinade (r * 2 ^ (-1074 : Int)) (-1074) := by
    refine ⟨by positivity, le_rfl, ?_, .inr rfl⟩
    refine mul_lt_mul_of_pos_right ?_ (two_zpow_pos _)
    linarith [(abs_le.mp hm).1]
  have hcarried : carried m (-1074) = (m, -1074) := if_neg hlt.ne
  have hclosest := hbinade.closest_carried hm heven
  rwa [hcarried] at hclosest

/-- The double that a canonical number is the value of. -/
theorem eq_pack_of_value (hx : IsMagnitude x) (hc : Canonical m e) (hv : value x = m * 2 ^ e) :
    x = pack (signed .positive m e) := by
  have hnear := hx.nearest
  rw [hv] at hnear
  exact hnear.unique (hc.closest_self.nearest (by positivity))

/-- Only one number of a grid is less than half a step away. -/
theorem eq_of_near (hu : 0 < u) (hg : |g * u - q| < u / 2) (hc : |c * u - q| < u / 2) : c = g := by
  by_contra hne
  have hone : (1 : ℚ) ≤ |(c : ℚ) - g| := by
    exact_mod_cast Int.one_le_abs (show (c : ℤ) - g ≠ 0 by omega)
  have hapart : u ≤ |c * u - g * u| := by
    rw [← sub_mul, abs_mul, abs_of_pos hu]
    exact le_mul_of_one_le_left hu.le hone
  have htri := abs_sub_le (c * u) q (g * u)
  rw [abs_sub_comm q] at htri
  linarith

/-- Of the numbers on a grid, one that is as near to a double as another one, which is rounded to
this double, is rounded to it too. The grid must not be much finer than the doubles. -/
theorem Nearest.of_grid (h : Nearest (g * u) x) (hx : IsMagnitude x) (hu : 0 < u)
    (hlt : value x < 2 ^ 52 * u) (hle : |c * u - value x| ≤ |g * u - value x|) :
    Nearest (c * u) x := by
  obtain ⟨m, e, hclosest, hv⟩ := h.exists_closest hx.finite (by positivity)
  have hpos := two_zpow_pos e
  have hscale : ∀ k : Nat, |(m : ℚ) - k * u / 2 ^ e| * 2 ^ e = |k * u - value x| := by
    intro k
    rw [hv, abs_sub_comm, ← abs_of_pos hpos, ← abs_mul, abs_of_pos hpos, sub_mul,
      div_mul_cancel₀ _ hpos.ne']
  have hself : ∀ k : Nat, (k : ℚ) * u = k * u / 2 ^ e * 2 ^ e :=
    fun k => (div_mul_cancel₀ _ hpos.ne').symm
  rw [hself g] at hclosest
  obtain ⟨hhalf, heven⟩ := hclosest.half_unit (by positivity)
  obtain hleading | rfl := hclosest.canonical.leading
  · -- only one number of the grid is so near
    have hunit : 2 ^ e < u := by
      have hm : (2 : ℚ) ^ 52 ≤ m := by exact_mod_cast hleading
      have : 2 ^ 52 * 2 ^ e < 2 ^ 52 * u :=
        (mul_le_mul_of_nonneg_right hm hpos.le).trans_lt (hv ▸ hlt)
      exact lt_of_mul_lt_mul_left this (by positivity)
    have hnear : |g * u - value x| < u / 2 := by
      have := mul_le_mul_of_nonneg_right hhalf hpos.le
      rw [hscale] at this
      linarith
    have heq : c = g := eq_of_near hu hnear (hle.trans_lt hnear)
    rwa [heq]
  · rw [eq_pack_of_value hx hclosest.canonical hv]
    rw [← hscale, ← hscale] at hle
    have hle := le_of_mul_le_mul_right hle hpos
    have hnew := Closest.of_half_unit hclosest.canonical (r := c * u / 2 ^ (-1074 : Int))
      (by positivity) (hle.trans hhalf) fun htie => heven (le_antisymm hhalf (htie ▸ hle))
    rw [← hself] at hnew
    exact hnew.nearest (by positivity)

end Calculator.Binary64
