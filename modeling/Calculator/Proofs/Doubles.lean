import Mathlib
import Calculator.Binary64

/-!
# The finite doubles

A finite double is `± m · 2 ^ e` with a significand below `2 ^ 53` and an exponent from `-1074`
to `971`. The leading bit of the significand is set unless the exponent is the least, so no
number is written in two ways. A double is determined by what is unpacked from it.
-/

namespace Calculator.Binary64

open Float.Model (UnpackedFloat Format)
open Float.Model.UnpackedFloat

/-- The significands and exponents of doubles, with no upper end to the exponents. -/
structure Canonical (m : Nat) (e : Int) : Prop where
  lt : m < 2 ^ 53
  least : -1074 ≤ e
  leading : 2 ^ 52 ≤ m ∨ e = -1074

theorem canonical_zero : Canonical 0 (-1074) := ⟨by norm_num, le_refl _, .inr rfl⟩

/-! ## Packing and unpacking -/

theorem toNat_append_leading (b : BitVec 52) : (1#1 ++ b).toNat = 2 ^ 52 + b.toNat := by
  rw [BitVec.toNat_append, ← Nat.shiftLeft_add_eq_or_of_lt b.isLt]
  simp [Nat.shiftLeft_eq]

theorem toNat_pos_of_ne {k : Nat} {b : BitVec k} (h : ¬ b = 0#k) : 0 < b.toNat := by
  simpa [BitVec.toNat_pos, BitVec.pos_iff_ne_zero] using h

theorem toNat_leading_pos {k : Nat} (b : BitVec k) : 0 < (1#1 ++ b).toNat := by simp

/-- What is unpacked, in terms of the components. -/
theorem unpack_of_components {spec : Format} {b : BitVec spec.numBits} {s : Sign}
    {e : BitVec spec.exponentBits} {m : BitVec spec.mantissaBitsWithoutImplicit}
    (hs : .ofBitVec (unpackSign b) = s) (he : unpackExponent b = e) (hm : unpackMantissa b = m) :
    UnpackedFloat.unpack spec b =
      if e = -1#_ then if m = 0#_ then .infinity s else .notANumber
      else if e = 0#_ then
        if h : m = 0#_ then .zero s
        else
          .finite s m.toNat
            (e.toNat - (spec.exponentBias + spec.mantissaBitsWithoutImplicit) + 1)
            (toNat_pos_of_ne h)
      else
        .finite s (1#1 ++ m).toNat
          (e.toNat - (spec.exponentBias + spec.mantissaBitsWithoutImplicit))
          (toNat_leading_pos m) := by
  subst hs he hm
  rfl

theorem sign_packComponents {spec : Format} (s : Sign) (e : BitVec spec.exponentBits)
    (m : BitVec spec.mantissaBitsWithoutImplicit) :
    .ofBitVec (unpackSign (packComponents spec s e m)) = s := by
  rw [unpackSign_packComponents, Sign.ofBitVec_toBitVec]

theorem finite_congr (s : Sign) {m n : Nat} {e f : Int} {hm : 0 < m} {hn : 0 < n} (h : m = n)
    (h' : e = f) : UnpackedFloat.finite s m e hm = .finite s n f hn := by
  subst h
  rw [h']

theorem unpack_pack_zero (s : Sign) : unpack (pack (.zero s)) = .zero s := by
  cases s <;> rfl

theorem unpack_pack_infinity (s : Sign) : unpack (pack (.infinity s)) = .infinity s := by
  cases s <;> rfl

theorem pack_overflow (s : Sign) {m : Nat} {e : Int} (hm : 0 < m) (he : 972 ≤ e) :
    pack (.finite s m e hm) = pack (.infinity s) := by
  have hb : 2 ^ 11 ≤ (e + (1023 : Nat) + (52 : Nat)).toNat + 1 := by omega
  exact Float.toBits_inj.mp (congrArg UInt64.ofBitVec (if_pos hb))

theorem unpack_normal (s : Sign) {k m : Nat} (hm : 0 < m) (hk : 0 < k) (hk' : k < 2047)
    (hl : 2 ^ 52 ≤ m) (hu : m < 2 ^ 53) :
    UnpackedFloat.unpack .binary64
      (packComponents .binary64 s (BitVec.ofNat 11 k) (BitVec.ofNat 52 m)) =
        .finite s m (k - 1075) hm := by
  have hn : (BitVec.ofNat 11 k).toNat = k := by
    rw [BitVec.toNat_ofNat, Nat.mod_eq_of_lt (by omega)]
  have hone : (-1#11 : BitVec 11).toNat = 2047 := rfl
  have hzero : (0#11 : BitVec 11).toNat = 0 := rfl
  have h1 : BitVec.ofNat 11 k ≠ -1#11 := ne_of_apply_ne BitVec.toNat (by omega)
  have h0 : BitVec.ofNat 11 k ≠ 0#11 := ne_of_apply_ne BitVec.toNat (by omega)
  have hmant : (1#1 ++ BitVec.ofNat 52 m).toNat = m := by
    rw [toNat_append_leading, BitVec.toNat_ofNat]
    omega
  rw [unpack_of_components (sign_packComponents s _ _) unpackExponent_packComponents
    unpackMantissa_packComponents, if_neg h1, if_neg h0]
  refine finite_congr s hmant ?_
  rw [hn]
  rfl

theorem unpack_subnormal (s : Sign) {m : Nat} (hm : 0 < m) (hu : m < 2 ^ 52) :
    UnpackedFloat.unpack .binary64 (packComponents .binary64 s 0#11 (BitVec.ofNat 52 m)) =
      .finite s m (-1074) hm := by
  have hn : (BitVec.ofNat 52 m).toNat = m := by
    rw [BitVec.toNat_ofNat, Nat.mod_eq_of_lt hu]
  have h0 : BitVec.ofNat 52 m ≠ 0#52 := by
    refine ne_of_apply_ne BitVec.toNat ?_
    rw [hn]
    exact hm.ne'
  rw [unpack_of_components (sign_packComponents s _ _) unpackExponent_packComponents
    unpackMantissa_packComponents, if_neg (by decide), if_pos rfl, dif_neg h0]
  exact finite_congr s hn rfl

/-- What is packed, with the exponent as it is stored. -/
theorem pack_finite (s : Sign) {m : Nat} (k : Nat) (hm : 0 < m) :
    UnpackedFloat.pack .binary64 (.finite s m (k - 1075) hm) =
      if 2 ^ 11 ≤ k + 1 then packedInfinity .binary64 s
      else if m.log2 + 1 = 53 then
        packComponents .binary64 s (BitVec.ofNat 11 k) (BitVec.ofNat 52 m)
      else packComponents .binary64 s 0#11 (BitVec.ofNat 52 m) := by
  have hb : ((k : Int) - 1075 + (1023 : Nat) + (52 : Nat)).toNat = k := by omega
  conv_rhs => rw [← hb]
  rfl

/-- A canonical double is read back from its bits, if its exponent fits. -/
theorem unpack_pack_finite (s : Sign) {m : Nat} {e : Int} (hm : 0 < m) (hc : Canonical m e)
    (he : e ≤ 971) : unpack (pack (.finite s m e hm)) = .finite s m e hm := by
  have hleast := hc.least
  obtain ⟨k, rfl⟩ : ∃ k : Nat, e = k - 1075 := ⟨(e + 1075).toNat, by omega⟩
  change UnpackedFloat.unpack .binary64 (UnpackedFloat.pack .binary64 (.finite s m _ hm)) = _
  rw [pack_finite, if_neg (by omega)]
  by_cases hn : 2 ^ 52 ≤ m
  · have hlog : m.log2 = 52 := (Nat.log2_eq_iff hm.ne').mpr ⟨hn, hc.lt⟩
    rw [if_pos (by omega), unpack_normal s hm (by omega) (by omega) hn hc.lt]
  · have hlog : m.log2 < 52 := (Nat.log2_lt hm.ne').mpr (by omega)
    obtain rfl : k = 1 := by
      have := hc.leading.resolve_left hn
      omega
    rw [if_neg (by omega), unpack_subnormal s hm (by omega)]
    rfl

/-- The exponent that is stored for a finite double is not the greatest. -/
theorem toNat_lt_of_ne {k : BitVec 11} (h : k ≠ -1#11) : k.toNat < 2047 := by
  have hlt := k.isLt
  have hne : k.toNat ≠ 2047 := fun he => h (BitVec.eq_of_toNat_eq he)
  omega

/-- The bits of a double and what they stand for. -/
inductive Stored : BitVec 64 → UnpackedFloat → Prop where
  | infinity (s : Sign) : Stored (packedInfinity .binary64 s) (.infinity s)
  | notANumber {b : BitVec 64} (he : @unpackExponent .binary64 b = -1#11)
    (hm : @unpackMantissa .binary64 b ≠ 0#52) : Stored b .notANumber
  | zero (s : Sign) : Stored (packedZero .binary64 s) (.zero s)
  | subnormal (s : Sign) {m : Nat} (hm : 0 < m) (hu : m < 2 ^ 52) :
    Stored (packComponents .binary64 s 0#11 (BitVec.ofNat 52 m)) (.finite s m (-1074) hm)
  | normal (s : Sign) {m k : Nat} (hm : 0 < m) (hk : 0 < k) (hk' : k < 2047) (hl : 2 ^ 52 ≤ m)
    (hu : m < 2 ^ 53) :
    Stored (packComponents .binary64 s (BitVec.ofNat 11 k) (BitVec.ofNat 52 m))
      (.finite s m (k - 1075) hm)

theorem stored_unpack (b : BitVec 64) : Stored b (UnpackedFloat.unpack .binary64 b) := by
  have hb := @packComponents_unpackSign_unpackExponent_unpackMantissa .binary64 b
  generalize hs : Sign.ofBitVec (@unpackSign .binary64 b) = s at hb
  generalize he : @unpackExponent .binary64 b = e at hb
  generalize hf : @unpackMantissa .binary64 b = f at hb
  have hu := unpack_of_components hs he hf
  by_cases h1 : e = -1#11
  · by_cases hz : f = 0#52
    · rw [hu, if_pos h1, if_pos hz, ← hb, h1, hz]
      exact .infinity s
    · rw [hu, if_pos h1, if_neg hz]
      exact .notANumber (he.trans h1) (hf ▸ hz)
  · by_cases h0 : e = 0#11
    · by_cases hz : f = 0#52
      · rw [hu, if_neg h1, if_pos h0, dif_pos hz, ← hb, h0, hz]
        exact .zero s
      · have hm : 0 < f.toNat := toNat_pos_of_ne hz
        have hstored := Stored.subnormal s hm f.isLt
        rw [← unpack_subnormal s hm f.isLt] at hstored
        simpa [← h0, hb] using hstored
    · have hpos : 0 < e.toNat := toNat_pos_of_ne h0
      have hlt := toNat_lt_of_ne h1
      have hfl : f.toNat < 2 ^ 52 := f.isLt
      obtain ⟨m, hm⟩ : ∃ m, m = 2 ^ 52 + f.toNat := ⟨_, rfl⟩
      have hf' : BitVec.ofNat 52 m = f := by
        apply BitVec.eq_of_toNat_eq
        rw [BitVec.toNat_ofNat]
        omega
      have hstored := @Stored.normal s m e.toNat (by omega) hpos hlt (by omega) (by omega)
      rw [← unpack_normal s (by omega) hpos hlt (by omega) (by omega)] at hstored
      simpa [hf', hb] using hstored

/-- What is unpacked from a finite double is canonical. -/
theorem canonical_of_unpack {x : Float} {s : Sign} {m : Nat} {e : Int} {hm : 0 < m}
    (h : unpack x = .finite s m e hm) : Canonical m e ∧ e ≤ 971 := by
  have hstored := stored_unpack x.toModel.toBits.toBitVec
  change UnpackedFloat.unpack .binary64 x.toModel.toBits.toBitVec = _ at h
  rw [h] at hstored
  generalize x.toModel.toBits.toBitVec = b at hstored
  cases hstored with
  | subnormal s hm hu => exact ⟨⟨by omega, le_refl _, .inr rfl⟩, by omega⟩
  | normal s hm hk hk' hl hu => exact ⟨⟨hu, by omega, .inl hl⟩, by omega⟩

/-- A double is determined by what is unpacked from it. -/
theorem unpack_inj {x y : Float} (h : unpack x = unpack y) : x = y := by
  have hbits := (unpack_inj_of_valid x.toModel.valid y.toModel.valid).mp h
  exact Float.toBits_inj.mp (UInt64.toBitVec_inj.mp hbits)

theorem isFinite_of_infinity {x : Float} {s : Sign} (h : unpack x = .infinity s) :
    x.isFinite = false := by
  change (unpack x).isFinite = false
  rw [h]
  rfl

theorem eq_infinity {x : Float} (h : unpack x = .infinity .positive) : x = infinity :=
  unpack_inj (h.trans (unpack_pack_infinity .positive).symm)

/-! ## Values -/

/-- The unpacked double with the given sign, significand and exponent. -/
def signed (s : Sign) (m : Nat) (e : Int) : UnpackedFloat :=
  if hm : 0 < m then .finite s m e hm else .zero s

/-- The number that a finite double stands for; zero for the others. -/
def value (x : Float) : ℚ :=
  match unpack x with
  | .finite s m e _ => (s.apply m : ℤ) * 2 ^ e
  | _ => 0

/-- The significand of a finite double; zero for the others. -/
def significand (x : Float) : Nat :=
  match unpack x with
  | .finite _ m _ _ => m
  | _ => 0

/-- The sign is positive. NaN has none. -/
def IsUnsigned (x : Float) : Prop :=
  match unpack x with
  | .finite s _ _ _ | .zero s | .infinity s => s = .positive
  | .notANumber => False

theorem two_zpow_pos (e : Int) : (0 : ℚ) < 2 ^ e := by positivity

variable {m n : Nat} {e f : Int}

/-- Of two canonical numbers the one with the greater exponent is greater. -/
theorem Canonical.lt_of_exponent_lt (hm : Canonical m e) (hn : Canonical n f) (h : e < f) :
    (m : ℚ) * 2 ^ e < n * 2 ^ f := by
  have hpos := two_zpow_pos e
  have hmlt : (m : ℚ) < 2 ^ 53 := by exact_mod_cast hm.lt
  have hnle : (2 : ℚ) ^ 52 ≤ n := by
    have hle := hm.least
    have := hn.leading.resolve_right (by omega)
    exact_mod_cast this
  have hstep : (2 : ℚ) ^ (e + 1) ≤ 2 ^ f := zpow_le_zpow_right₀ (by norm_num) (by omega)
  calc (m : ℚ) * 2 ^ e < 2 ^ 53 * 2 ^ e := by gcongr
    _ = 2 ^ 52 * 2 ^ (e + 1) := by
      rw [zpow_add_one₀ (by norm_num)]
      ring
    _ ≤ n * 2 ^ f := by gcongr

/-- No number is written canonically in two ways. -/
theorem Canonical.inj (hm : Canonical m e) (hn : Canonical n f)
    (h : (m : ℚ) * 2 ^ e = n * 2 ^ f) : m = n ∧ e = f := by
  obtain hlt | rfl | hlt := lt_trichotomy e f
  · exact absurd h (hm.lt_of_exponent_lt hn hlt).ne
  · have hpos := two_zpow_pos e
    exact ⟨by exact_mod_cast mul_right_cancel₀ hpos.ne' h, rfl⟩
  · exact absurd h (hn.lt_of_exponent_lt hm hlt).ne'

theorem unpack_pack_signed (s : Sign) (hc : Canonical m e) (he : e ≤ 971) :
    unpack (pack (signed s m e)) = signed s m e := by
  unfold signed
  split_ifs with hm
  · exact unpack_pack_finite s hm hc he
  · exact unpack_pack_zero s

theorem pack_signed_overflow (s : Sign) (hc : Canonical m e) (he : 972 ≤ e) :
    pack (signed s m e) = pack (.infinity s) := by
  have hm : 2 ^ 52 ≤ m := hc.leading.resolve_right (by omega)
  rw [signed, dif_pos (by omega)]
  exact pack_overflow s _ he

/-- A finite double is a canonical number with a sign. -/
theorem exists_signed {x : Float} (hx : x.isFinite = true) :
    ∃ s m e, Canonical m e ∧ e ≤ 971 ∧ unpack x = signed s m e := by
  change (unpack x).isFinite = true at hx
  cases hu : unpack x with
  | infinity s => simp [hu, UnpackedFloat.isFinite] at hx
  | notANumber => simp [hu, UnpackedFloat.isFinite] at hx
  | zero s => exact ⟨s, 0, -1074, canonical_zero, by norm_num, rfl⟩
  | finite s m e hm =>
    obtain ⟨hc, he⟩ := canonical_of_unpack hu
    exact ⟨s, m, e, hc, he, (dif_pos hm).symm⟩

theorem isFinite_of_signed {x : Float} {s : Sign} (h : unpack x = signed s m e) :
    x.isFinite = true := by
  change (unpack x).isFinite = true
  rw [h, signed]
  split_ifs <;> rfl

theorem value_of_signed {x : Float} {s : Sign} (h : unpack x = signed s m e) :
    value x = (s.apply m : ℤ) * 2 ^ e := by
  rw [value, h, signed]
  split_ifs with hm
  · rfl
  · obtain rfl : m = 0 := by omega
    cases s <;> simp [Sign.apply]

theorem significand_of_signed {x : Float} {s : Sign} (h : unpack x = signed s m e) :
    significand x = m := by
  rw [significand, h, signed]
  split_ifs with hm
  · rfl
  · exact (Nat.eq_zero_of_not_pos hm).symm

theorem isUnsigned_of_signed {x : Float} {s : Sign} (h : unpack x = signed s m e) :
    IsUnsigned x ↔ s = .positive := by
  rw [IsUnsigned, h, signed]
  split_ifs <;> rfl

/-- A double without sign is no NaN, and no negative number. -/
theorem IsUnsigned.nonneg {x : Float} (h : IsUnsigned x) : x.isNaN = false ∧ 0 ≤ x := by
  have hle : (unpack 0).le (unpack x) = true → 0 ≤ x := fun h => decide_eq_true h
  have hzero : unpack 0 = .zero .positive := rfl
  rw [hzero] at hle
  change (unpack x).isNaN = false ∧ 0 ≤ x
  rw [IsUnsigned] at h
  cases hu : unpack x with
  | notANumber =>
    rw [hu] at h
    exact h.elim
  | infinity s =>
    rw [hu] at h hle
    obtain rfl : s = .positive := h
    exact ⟨rfl, hle rfl⟩
  | zero s =>
    rw [hu] at hle
    exact ⟨rfl, hle rfl⟩
  | finite s m e hm =>
    rw [hu] at h hle
    obtain rfl : s = .positive := h
    exact ⟨rfl, hle rfl⟩

end Calculator.Binary64
