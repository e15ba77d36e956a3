import Calculator.Decimal.Text
import Calculator.Proofs.Numerals

/-!
# Positional notation

The positional notation of a decimal number is a numeral for this number, wherever the point is
put and however many zeros that takes.
-/

namespace Calculator.Decimal

variable {c : Char} {digits : List Char} {d : Decimal}

theorem isDigit_of_mem_digits (h : c ∈ d.digits) : c.isDigit = true :=
  Nat.isDigit_of_mem_toDigits (by decide +kernel) (by decide +kernel) h

theorem isNumeralChar_of_mem_insertPoint {places : Nat} (hd : ∀ c ∈ digits, c.isDigit = true)
    (h : c ∈ insertPoint digits places) : isNumeralChar c = true := by
  rw [isNumeralChar, Bool.or_eq_true, beq_iff_eq]
  unfold insertPoint at h
  split at h
  · simp only [List.mem_cons, List.mem_append, List.mem_replicate] at h
    obtain rfl | rfl | ⟨-, rfl⟩ | h := h
    · exact .inl rfl
    · exact .inr rfl
    · exact .inl rfl
    · exact .inl (hd c h)
  · simp only [List.mem_append, List.mem_cons] at h
    obtain h | rfl | h := h
    · exact .inl (hd c (List.mem_of_mem_take h))
    · exact .inr rfl
    · exact .inl (hd c (List.mem_of_mem_drop h))

/-- Positional notation is made of digits and points. -/
theorem isNumeralChar_of_mem_positional (h : c ∈ d.positional) : isNumeralChar c = true := by
  unfold positional at h
  split at h
  · rw [isNumeralChar, Bool.or_eq_true]
    obtain h | h := List.mem_append.mp h
    · exact .inl (isDigit_of_mem_digits h)
    · obtain ⟨-, rfl⟩ := List.mem_replicate.mp h
      exact .inl rfl
  · exact isNumeralChar_of_mem_insertPoint (fun c hc => isDigit_of_mem_digits hc) h

/-! ## What the digits stand for -/

theorem ofDigits_eq (digits : List Char) : ofDigits digits = Nat.ofDigitChars 10 digits 0 := rfl

theorem ofDigits_digits (d : Decimal) : ofDigits d.digits = d.coefficient :=
  Nat.ofDigitChars_ten_toDigits

/-- Zeros after the digits multiply by powers of ten. -/
theorem ofDigits_append_zeros (digits : List Char) (k : Nat) :
    ofDigits (digits ++ List.replicate k '0') = 10 ^ k * ofDigits digits := by
  rw [ofDigits_eq, Nat.ofDigitChars_append, Nat.ofDigitChars_replicate_zero]
  rfl

/-- Zeros before the digits make no difference. -/
theorem ofDigits_zeros_append (k : Nat) (digits : List Char) :
    ofDigits (List.replicate k '0' ++ digits) = ofDigits digits := by
  rw [ofDigits_eq, Nat.ofDigitChars_append, Nat.ofDigitChars_replicate_zero, Nat.mul_zero]
  rfl

theorem isDigit_of_mem_zeros {k : Nat} (h : c ∈ List.replicate k '0') : c.isDigit = true := by
  rw [(List.mem_replicate.mp h).2]
  rfl

/-- With the point put in, the digits count as powers of a tenth. -/
theorem ofNumeral?_insertPoint (hd : ∀ c ∈ digits, c.isDigit = true) (hne : digits ≠ [])
    (places : Nat) : ofNumeral? (insertPoint digits places) = some ⟨ofDigits digits, -places⟩ := by
  unfold insertPoint
  split
  · rename_i hle
    obtain ⟨zeros, hzeros⟩ : ∃ k, places - digits.length = k := ⟨_, rfl⟩
    have hwhole : ∀ c ∈ ['0'], c.isDigit = true := List.forall_mem_singleton.mpr rfl
    have hfraction : ∀ c ∈ List.replicate zeros '0' ++ digits, c.isDigit = true :=
      List.forall_mem_append.mpr ⟨fun c hc => isDigit_of_mem_zeros hc, hd⟩
    have hvalue : ofDigits ('0' :: (List.replicate zeros '0' ++ digits)) = ofDigits digits :=
      ofDigits_zeros_append (zeros + 1) digits
    have hlength : (List.replicate zeros '0' ++ digits).length = places := by
      rw [List.length_append, List.length_replicate]
      omega
    rw [hzeros]
    refine (ofNumeral?_point hwhole).mpr ⟨List.cons_ne_nil _ _, hfraction, ?_⟩
    rw [List.singleton_append, hvalue, hlength]
  · rename_i hlt
    obtain ⟨k, hk⟩ : ∃ k, digits.length - places = k := ⟨_, rfl⟩
    have hwhole : ∀ c ∈ digits.take k, c.isDigit = true :=
      fun c hc => hd c (List.mem_of_mem_take hc)
    have hfraction : ∀ c ∈ digits.drop k, c.isDigit = true :=
      fun c hc => hd c (List.mem_of_mem_drop hc)
    have hlength : (digits.drop k).length = places := by
      rw [List.length_drop]
      omega
    rw [hk]
    refine (ofNumeral?_point hwhole).mpr ?_
    rw [List.take_append_drop, hlength]
    exact ⟨hne, hfraction, rfl⟩

/-- From positional notation a decimal of the same value is read. -/
theorem exists_ofNumeral?_positional (d : Decimal) :
    ∃ d', ofNumeral? d.positional = some d' ∧ d'.value = d.value := by
  have hdigits : ∀ c ∈ d.digits, c.isDigit = true := fun c hc => isDigit_of_mem_digits hc
  have hne : d.digits ≠ [] := Nat.toDigits_ne_nil
  by_cases hexp : 0 ≤ d.exponent
  · obtain ⟨k, hk⟩ := Int.eq_ofNat_of_zero_le hexp
    have hall : ∀ c ∈ d.digits ++ List.replicate k '0', c.isDigit = true :=
      List.forall_mem_append.mpr ⟨hdigits, fun c hc => isDigit_of_mem_zeros hc⟩
    refine ⟨⟨10 ^ k * d.coefficient, 0⟩, ?_, ?_⟩
    · rw [positional, if_pos hexp, hk, Int.toNat_natCast, ofNumeral?_digits hall,
        ofDigits_append_zeros, ofDigits_digits]
      exact ⟨List.append_ne_nil_of_left_ne_nil hne _, rfl⟩
    · simp only [value, hk, zpow_natCast, zpow_zero]
      push_cast
      ring
  · refine ⟨d, ?_, rfl⟩
    have hplaces : -((-d.exponent).toNat : Int) = d.exponent := by omega
    rw [positional, if_neg hexp, ofNumeral?_insertPoint hdigits hne, ofDigits_digits, hplaces]

/-- Positional notation is a numeral for the number. -/
theorem isNumeral_positional (d : Decimal) :
    IsNumeral d.positional ∧ numeralValue d.positional = d.value := by
  obtain ⟨d', hd', hvalue⟩ := exists_ofNumeral?_positional d
  obtain ⟨hnumeral, hread⟩ :=
    isNumeral_of_ofNumeral? (fun c hc => isNumeralChar_of_mem_positional hc) hd'
  exact ⟨hnumeral, hread.symm.trans hvalue⟩

end Calculator.Decimal

namespace Calculator.Binary64

open Float.Model.UnpackedFloat (Sign)

/-- Plain texts are made of digits and points, a minus sign, and the names of special values. -/
theorem notMem_plainText {c : Char} (hn : Decimal.isNumeralChar c = false)
    (hs : c ∉ "-infNaN".toList) (x : Float) : c ∉ (plainText x).toList := by
  have hletters : ∀ text : String, text.toList ⊆ "-infNaN".toList → c ∉ text.toList :=
    fun text hsub hc => hs (hsub hc)
  have hsign : ∀ s, c ∉ (signText s).toList := by
    intro s
    cases s <;> exact hletters _ (by decide)
  unfold plainText textBy
  split
  · exact hletters _ (by decide)
  · rw [String.toList_append, List.mem_append, not_or]
    exact ⟨hsign _, hletters _ (by decide)⟩
  · rw [String.toList_append, List.mem_append, not_or]
    refine ⟨hsign _, fun hc => ?_⟩
    obtain rfl : c = '0' := by simpa using hc
    cases hn
  · rw [String.toList_append, String.toList_ofList, List.mem_append, not_or]
    refine ⟨hsign _, fun hc => ?_⟩
    rw [Decimal.isNumeralChar_of_mem_positional hc] at hn
    cases hn

end Calculator.Binary64
