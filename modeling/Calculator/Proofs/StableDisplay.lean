import Calculator.Display
import Calculator.Proofs.ReadBack
import Calculator.Proofs.SignificantDigits

/-!
# What is shown is shown again

The text that is shown for a value is the plain text of one double: of the value, or of its rounding
to ten significant digits, which may be a whole number or have a short text itself. The text is read
back as this double, and this double is shown as the same text.
-/

namespace Calculator.Display

open Binary64

/-- The double whose plain text is shown for a value. -/
def shown (value : Float) : Float :=
  let value := value + 0
  if isIntegral value || (plainText value).length ≤ significantDigits then value
  else roundToDigits significantDigits value

theorem number_eq (v : Float) : number v = plainText (shown v) := by
  simp only [number, shown]
  split <;> rfl

theorem shown_ne (v : Float) : shown v ≠ -0 := by
  have hne := add_zero_ne v
  simp only [shown]
  split
  · exact hne
  · exact roundToDigits_ne_neg_zero (by decide) hne

/-- A double that is no negative zero is shown in full or rounded. -/
theorem shown_of_ne {v : Float} (h : v ≠ -0) :
    shown v = v ∨ shown v = roundToDigits significantDigits v := by
  simp only [shown, add_zero_of_ne h]
  split
  · exact .inl rfl
  · exact .inr rfl

theorem shown_shown (v : Float) : shown (shown v) = shown v := by
  have hagain := shown_of_ne (shown_ne v)
  by_cases hfull : isIntegral (v + 0) || (plainText (v + 0)).length ≤ significantDigits
  · have hv : shown v = v + 0 := if_pos hfull
    rw [hv, shown, add_zero_of_ne (add_zero_ne v)]
    exact if_pos hfull
  · -- whichever way the rounded double is shown, it is not rounded any further
    have hv : shown v = roundToDigits significantDigits (v + 0) := if_neg hfull
    have hround : roundToDigits significantDigits (shown v) = shown v := by
      rw [hv]
      exact roundToDigits_idem (by decide) (by norm_num [significantDigits]) (v + 0)
    obtain h | h := hagain
    · exact h
    · rw [h, hround]

/-- The text shown for a value is read back as a double that is shown by the same text, and it is
never the text of a negative zero. -/
theorem number_stable (v : Float) :
    (∃ r, ofPlainText? (number v) = some r ∧ number r = number v) ∧ number v ≠ "-0" := by
  refine ⟨⟨shown v, ?_, ?_⟩, ?_⟩
  · rw [number_eq, ofPlainText?_plainText]
  · rw [number_eq, number_eq, shown_shown]
  · have hzero : plainText (-0) = "-0" := by decide +kernel
    rw [number_eq, ← hzero]
    exact fun h => shown_ne v (plainText_inj h)

/-- Rounding may give a whole number. -/
example : number 0.99999999999 = "1" ∧ number 1 = "1" := by decide +kernel

end Calculator.Display
