import Calculator.Proofs.Doubles

/-!
# Zeros, infinities and NaN in arithmetic

What an operation does to the special values is seen from what is unpacked. Infinity and NaN never
give a finite difference, a finite dividend over infinity is a zero, and taking a zero away or adding
one changes nothing but perhaps the sign of another zero.
-/

namespace Calculator.Binary64

open Float.Model (UnpackedFloat)
open Float.Model.UnpackedFloat

variable {u v : UnpackedFloat}

/-! ## Unpacked operations -/

theorem isFinite_of_unpacked_sub (h : (sub .binary64 u v).isFinite = true) :
    u.isFinite = true ∧ v.isFinite = true := by
  cases u with
  | notANumber => cases h
  | infinity s =>
    cases v with
    | infinity t => cases s <;> cases t <;> cases h
    | _ => cases h
  | zero s =>
    cases v with
    | notANumber | infinity t => cases h
    | _ => exact ⟨rfl, rfl⟩
  | finite s m e hm =>
    cases v with
    | notANumber | infinity t => cases h
    | _ => exact ⟨rfl, rfl⟩

theorem isFinite_of_unpacked_div (h : (div .binary64 u v).isFinite = true) :
    u.isFinite = true ∧ v.isNaN = false := by
  cases u with
  | notANumber => cases h
  | infinity s => cases v <;> cases h
  | zero s =>
    cases v with
    | notANumber => cases h
    | _ => exact ⟨rfl, rfl⟩
  | finite s m e hm =>
    cases v with
    | notANumber => cases h
    | _ => exact ⟨rfl, rfl⟩

theorem unpacked_div_infinity (h : u.isFinite = true) (s : Sign) :
    ∃ t, div .binary64 u (.infinity s) = .zero t := by
  cases u with
  | notANumber | infinity t => cases h
  | zero t | finite t m e hm => exact ⟨t / s, rfl⟩

theorem unpacked_add_nan (u : UnpackedFloat) : add .binary64 u .notANumber = .notANumber := by
  cases u <;> rfl

theorem unpacked_nan_mul (u : UnpackedFloat) : mul .binary64 .notANumber u = .notANumber := by
  cases u <;> rfl

theorem unpacked_add_infinity (h : u.isFinite = true) (s : Sign) :
    add .binary64 u (.infinity s) = .infinity s := by
  cases u with
  | notANumber | infinity t => cases h
  | zero t | finite t m e hm => rfl

theorem unpacked_sub_zero (u : UnpackedFloat) (s : Sign) :
    sub .binary64 u (.zero s) = u ∨ ∃ t t', u = .zero t ∧ sub .binary64 u (.zero s) = .zero t' := by
  cases u with
  | zero t =>
    refine .inr ⟨t, ?_⟩
    cases s <;> cases t <;> exact ⟨_, rfl, rfl⟩
  | _ => exact .inl rfl

theorem unpacked_sub_self (h : u.isFinite = true) : ∃ s, sub .binary64 u u = .zero s := by
  cases u with
  | notANumber | infinity s => cases h
  | zero s => cases s <;> exact ⟨_, rfl⟩
  | finite s m e hm =>
    refine ⟨.positive, ?_⟩
    simp only [sub, Int.sub_self, UnpackedFloat.normalize]
    rfl

/-- Nothing is greater than infinity. -/
theorem infinity_not_lt (v : UnpackedFloat) :
    UnpackedFloat.lt (.infinity .positive) v = false := by
  cases v with
  | infinity s => cases s <;> rfl
  | _ => rfl

/-! ## Operations on doubles -/

/-- A zero of either sign. -/
def IsZero (x : Float) : Prop := ∃ s, unpack x = .zero s

variable {x y z : Float}

theorem lt_iff : x < y ↔ (unpack x).lt (unpack y) = true := by
  change decide ((unpack x).lt (unpack y) = true) = true ↔ _
  rw [decide_eq_true_iff]

theorem le_iff : x ≤ y ↔ (unpack x).le (unpack y) = true := by
  change decide ((unpack x).le (unpack y) = true) = true ↔ _
  rw [decide_eq_true_iff]

theorem exists_infinity (h : x.isInf = true) : ∃ s, unpack x = .infinity s := by
  change (unpack x).isInf = true at h
  cases hu : unpack x with
  | infinity s => exact ⟨s, rfl⟩
  | _ =>
    rw [hu] at h
    cases h

/-- A double that is not finite is NaN or an infinity. -/
theorem isInf_of_isFinite (h : x.isFinite = false) (hn : x.isNaN = false) : x.isInf = true := by
  change (unpack x).isFinite = false at h
  change (unpack x).isNaN = false at hn
  change (unpack x).isInf = true
  cases hu : unpack x with
  | infinity s => rfl
  | notANumber =>
    rw [hu] at hn
    cases hn
  | _ =>
    rw [hu] at h
    cases h

/-- Packing makes nothing finite that was not. -/
theorem isFinite_of_pack (h : (pack u).isFinite = true) : u.isFinite = true := by
  change (unpack (pack u)).isFinite = true at h
  cases u with
  | infinity s =>
    rw [unpack_pack_infinity] at h
    cases h
  | notANumber => cases h
  | _ => rfl

/-- What was unpacked is packed again. -/
theorem unpack_pack_unpack (x : Float) : unpack (pack (unpack x)) = unpack x := by
  cases hu : unpack x with
  | notANumber => rfl
  | infinity s => exact unpack_pack_infinity s
  | zero s => exact unpack_pack_zero s
  | finite s m e hm =>
    obtain ⟨hc, he⟩ := canonical_of_unpack hu
    exact unpack_pack_finite s hm hc he

theorem pack_unpack (x : Float) : pack (unpack x) = x := unpack_inj (unpack_pack_unpack x)

theorem isZero_pack (s : Sign) : IsZero (pack (.zero s)) := ⟨s, unpack_pack_zero s⟩

theorem IsZero.eq_pack (h : IsZero x) : ∃ s, x = pack (.zero s) := by
  obtain ⟨s, hs⟩ := h
  exact ⟨s, unpack_inj (hs.trans (unpack_pack_zero s).symm)⟩

theorem isFinite_of_sub (h : (x - y).isFinite = true) : x.isFinite = true ∧ y.isFinite = true :=
  isFinite_of_unpacked_sub (isFinite_of_pack (u := sub .binary64 (unpack x) (unpack y)) h)

theorem isFinite_of_div (h : (x / y).isFinite = true) : x.isFinite = true ∧ y.isNaN = false :=
  isFinite_of_unpacked_div (isFinite_of_pack (u := div .binary64 (unpack x) (unpack y)) h)

theorem unpack_of_isNaN (h : x.isNaN = true) : unpack x = .notANumber := by
  change (unpack x).isNaN = true at h
  cases hu : unpack x with
  | notANumber => rfl
  | _ =>
    rw [hu] at h
    cases h

/-- A product with NaN is NaN. -/
theorem isNaN_mul (h : x.isNaN = true) (y : Float) : (x * y).isNaN = true := by
  change (unpack (pack (mul .binary64 (unpack x) (unpack y)))).isNaN = true
  rw [unpack_of_isNaN h, unpacked_nan_mul]
  rfl

/-- NaN is not less than anything, nor is anything less than NaN. -/
theorem isNaN_of_lt (h : x < y) : x.isNaN = false ∧ y.isNaN = false := by
  have hlt := lt_iff.mp h
  refine ⟨?_, ?_⟩
  · rw [Bool.eq_false_iff]
    intro hx
    rw [unpack_of_isNaN hx] at hlt
    cases hu : unpack y <;> rw [hu] at hlt <;> cases hlt
  · rw [Bool.eq_false_iff]
    intro hy
    rw [unpack_of_isNaN hy] at hlt
    cases hu : unpack x <;> rw [hu] at hlt <;> cases hlt

/-- A finite dividend over infinity is a zero. -/
theorem isZero_div (hx : x.isFinite = true) (hy : y.isInf = true) : IsZero (x / y) := by
  obtain ⟨s, hs⟩ := exists_infinity hy
  obtain ⟨t, ht⟩ := unpacked_div_infinity (u := unpack x) hx s
  change IsZero (pack (div .binary64 (unpack x) (unpack y)))
  rw [hs, ht]
  exact isZero_pack t

/-- Taking a zero away changes nothing but the sign of a zero. -/
theorem sub_of_isZero (x : Float) (hz : IsZero z) :
    x - z = x ∨ IsZero x ∧ IsZero (x - z) := by
  obtain ⟨s, hs⟩ := hz
  have hsub : x - z = pack (sub .binary64 (unpack x) (.zero s)) := by
    rw [← hs]
    rfl
  rw [hsub]
  obtain h | ⟨t, t', hx, h⟩ := unpacked_sub_zero (unpack x) s
  · rw [h]
    exact .inl (pack_unpack x)
  · rw [h]
    exact .inr ⟨⟨t, hx⟩, isZero_pack t'⟩

/-- Adding zero changes nothing but the sign of a zero. -/
theorem add_zero_of_ne (h : x ≠ -0) : x + 0 = x := by
  have hadd : x + 0 = pack (add .binary64 (unpack x) (.zero .positive)) := rfl
  have hsame : add .binary64 (unpack x) (.zero .positive) = unpack x := by
    cases hu : unpack x with
    | zero s =>
      cases s with
      | positive => rfl
      | negative => exact absurd (unpack_inj hu) h
    | _ => rfl
  rw [hadd, hsame, pack_unpack]

theorem add_zero_ne (x : Float) : x + 0 ≠ -0 := by
  by_cases h : x = -0
  · rw [h]
    decide +kernel
  · rwa [add_zero_of_ne h]

theorem isZero_sub_self (hx : x.isFinite = true) : IsZero (x - x) := by
  obtain ⟨s, hs⟩ := unpacked_sub_self (u := unpack x) hx
  change IsZero (pack (sub .binary64 (unpack x) (unpack x)))
  rw [hs]
  exact isZero_pack s

theorem isFinite_of_abs_lt (h : x.abs < y) : x.isFinite = true := by
  have hlt : (unpack x.abs).lt (unpack y) = true := lt_iff.mp h
  have habs : unpack x.abs = unpack (pack (unpack x).abs) := rfl
  change (unpack x).isFinite = true
  cases hu : unpack x with
  | notANumber =>
    rw [habs, hu] at hlt
    cases hlt
  | infinity s =>
    have hinf : unpack x.abs = .infinity .positive := by
      rw [habs, hu]
      exact unpack_pack_infinity .positive
    rw [hinf, infinity_not_lt] at hlt
    cases hlt
  | _ => rfl

end Calculator.Binary64
