import Calculator.Proofs.NearestDouble
import Calculator.Proofs.SpecialValues

/-!
# Signs and magnitudes

A finite double is a magnitude with a sign. Changing the sign or taking it away changes what is
unpacked in the same way, and the number that the double stands for.
-/

namespace Calculator.Binary64

open Float.Model (UnpackedFloat Format)
open Float.Model.UnpackedFloat

variable {m n : Nat} {e f : Int} {x y : Float}

theorem signed_zero (s : Sign) (e : Int) : signed s 0 e = .zero s := dif_neg (lt_irrefl 0)

theorem signed_eq_finite {s : Sign} (hm : 0 < m) : signed s m e = .finite s m e hm := dif_pos hm

/-! ## Signs -/

theorem apply_positive (m : Nat) (e : Int) :
    ((Sign.positive.apply m : ℤ) : ℚ) * 2 ^ e = m * 2 ^ e := by simp [Sign.apply]

theorem apply_negative (m : Nat) (e : Int) :
    ((Sign.negative.apply m : ℤ) : ℚ) * 2 ^ e = -(m * 2 ^ e) := by simp [Sign.apply]

theorem apply_zero (s : Sign) (e : Int) : ((s.apply (0 : Nat) : ℤ) : ℚ) * 2 ^ e = 0 := by
  cases s <;> simp [Sign.apply]

theorem unpack_neg (x : Float) : unpack (-x) = (unpack x).neg := by
  have hneg : unpack (-x) = unpack (pack (unpack x).neg) := rfl
  rw [hneg]
  cases hu : unpack x with
  | notANumber => rfl
  | infinity s => exact unpack_pack_infinity (-s)
  | zero s => exact unpack_pack_zero (-s)
  | finite s m e hm =>
    obtain ⟨hc, he⟩ := canonical_of_unpack hu
    exact unpack_pack_finite (-s) hm hc he

theorem unpack_abs (x : Float) : unpack x.abs = (unpack x).abs := by
  have habs : unpack x.abs = unpack (pack (unpack x).abs) := rfl
  rw [habs]
  cases hu : unpack x with
  | notANumber => rfl
  | infinity s => exact unpack_pack_infinity .positive
  | zero s => exact unpack_pack_zero .positive
  | finite s m e hm =>
    obtain ⟨hc, he⟩ := canonical_of_unpack hu
    exact unpack_pack_finite .positive hm hc he

theorem abs_abs_eq (x : Float) : x.abs.abs = x.abs := by
  refine unpack_inj ?_
  rw [unpack_abs, unpack_abs]
  cases unpack x <;> rfl

theorem neg_neg_eq (x : Float) : - -x = x := by
  refine unpack_inj ?_
  rw [unpack_neg, unpack_neg]
  cases unpack x with
  | notANumber => rfl
  | infinity s | zero s | finite s m e hm => cases s <;> rfl

theorem apply_neg (s : Sign) (k : Int) : (-s).apply k = -s.apply k := by
  cases s with
  | positive => rfl
  | negative => exact (Int.neg_neg k).symm

theorem isFinite_neg (x : Float) : (-x).isFinite = x.isFinite := by
  change (unpack (-x)).isFinite = (unpack x).isFinite
  rw [unpack_neg]
  cases unpack x <;> rfl

theorem value_neg (x : Float) : value (-x) = -value x := by
  rw [value, value, unpack_neg]
  cases unpack x with
  | finite s m e hm =>
    simp only [UnpackedFloat.neg, apply_neg]
    push_cast
    ring
  | _ => exact neg_zero.symm

theorem abs_apply (s : Sign) (m : Nat) (e : Int) :
    |((s.apply m : ℤ) : ℚ) * 2 ^ e| = m * 2 ^ e := by
  have hnonneg : (0 : ℚ) ≤ m * 2 ^ e := by positivity
  cases s with
  | positive => rw [apply_positive, abs_of_nonneg hnonneg]
  | negative => rw [apply_negative, abs_neg, abs_of_nonneg hnonneg]

theorem eq_positive_of_pos {s : Sign} (h : 0 < ((s.apply m : ℤ) : ℚ) * 2 ^ e) :
    s = .positive := by
  cases s with
  | positive => rfl
  | negative =>
    have hnonneg : (0 : ℚ) ≤ m * 2 ^ e := by positivity
    rw [apply_negative] at h
    linarith

theorem eq_negative_of_neg {s : Sign} (h : ((s.apply m : ℤ) : ℚ) * 2 ^ e < 0) :
    s = .negative := by
  cases s with
  | negative => rfl
  | positive =>
    have hnonneg : (0 : ℚ) ≤ m * 2 ^ e := by positivity
    rw [apply_positive] at h
    linarith

/-- Without its sign, what is packed is a canonical number. -/
theorem abs_pack_signed (s : Sign) (hc : Canonical m e) :
    (pack (signed s m e)).abs = pack (signed .positive m e) := by
  by_cases he : e ≤ 971
  · refine unpack_inj ?_
    rw [unpack_abs, unpack_pack_signed s hc he, unpack_pack_signed .positive hc he, signed, signed]
    split_ifs <;> rfl
  · rw [pack_signed_overflow s hc (by omega), pack_signed_overflow .positive hc (by omega)]
    cases s <;> rfl

/-! ## Magnitudes -/

/-- A double that is finite, and not negative. -/
structure IsMagnitude (x : Float) : Prop where
  finite : x.isFinite = true
  unsigned : IsUnsigned x

theorem IsMagnitude.exists_positive (h : IsMagnitude x) :
    ∃ m e, Canonical m e ∧ e ≤ 971 ∧ unpack x = signed .positive m e ∧ value x = m * 2 ^ e :=
  Binary64.exists_positive h.finite h.unsigned

theorem IsMagnitude.value_nonneg (h : IsMagnitude x) : 0 ≤ value x := by
  obtain ⟨m, e, -, -, -, hv⟩ := h.exists_positive
  rw [hv]
  positivity

theorem IsMagnitude.nearest (h : IsMagnitude x) : Nearest (value x) x :=
  nearest_value h.finite h.unsigned

/-- The magnitude of a finite double is one. -/
theorem isMagnitude_abs (hx : x.isFinite = true) : IsMagnitude x.abs := by
  change (unpack x).isFinite = true at hx
  refine ⟨?_, ?_⟩
  · change (unpack x.abs).isFinite = true
    rw [unpack_abs]
    cases hu : unpack x <;> simp_all [UnpackedFloat.isFinite, UnpackedFloat.abs]
  · rw [IsUnsigned, unpack_abs]
    cases hu : unpack x <;> simp_all [UnpackedFloat.isFinite, UnpackedFloat.abs]

end Calculator.Binary64
