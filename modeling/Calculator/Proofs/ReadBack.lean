import Calculator.Proofs.Arithmetic
import Calculator.Proofs.Printing

/-!
# Plain texts are read back

The plain text of a double reads back as this double, whatever its sign, and so do the names of the
infinities and of NaN. So two doubles with the same text are equal.
-/

namespace Calculator

open Binary64 (unpack)

namespace Decimal

variable {x : Float}

/-- Decimals of the same value have the same nearest double. -/
theorem toFloat_congr {d d' : Decimal} (h : d.value = d'.value) : d.toFloat = d'.toFloat := by
  have hnear := d.nearest_toFloat
  rw [h] at hnear
  exact hnear.unique d'.nearest_toFloat

theorem ofMagnitude_abs (x : Float) : ofMagnitude x.abs = ofMagnitude x := by
  rw [ofMagnitude, ofMagnitude, Binary64.unpack_abs]
  cases unpack x <;> rfl

theorem shortest_abs (x : Float) : shortest x.abs = shortest x := by
  rw [shortest, shortest, ofMagnitude_abs, Binary64.abs_abs_eq]

/-- The shortest decimal of a finite double is read back as its magnitude. -/
theorem toFloat_shortest_eq_abs (hx : x.isFinite = true) : (shortest x).toFloat = x.abs := by
  have habs := Binary64.isMagnitude_abs hx
  rw [← shortest_abs]
  exact toFloat_shortest habs.finite habs.unsigned

end Decimal

namespace Binary64

open Float.Model (UnpackedFloat)
open Float.Model.UnpackedFloat (Sign)

/-- The double of a numeral, or of a name, that has no sign. -/
def ofUnsignedText? (text : List Char) : Option Float :=
  if text = "inf".toList then some infinity
  else if text = "NaN".toList then some nan
  else (Decimal.ofNumeral? text).map Decimal.toFloat

/-- The double that a text in positional notation reads back as, with a minus sign or without. -/
def ofPlainText? (text : String) : Option Float :=
  match text.toList with
  | '-' :: rest => (ofUnsignedText? rest).map (- ·)
  | unsigned => ofUnsignedText? unsigned

variable {x : Float} {d : Decimal}

/-- Positional notation is read as the nearest double. -/
theorem ofUnsignedText?_positional (d : Decimal) :
    ofUnsignedText? d.positional = some d.toFloat := by
  have hinf : d.positional ≠ "inf".toList := by
    intro h
    cases Decimal.isNumeralChar_of_mem_positional (d := d) (c := 'i') (h ▸ by decide)
  have hnan : d.positional ≠ "NaN".toList := by
    intro h
    cases Decimal.isNumeralChar_of_mem_positional (d := d) (c := 'N') (h ▸ by decide)
  obtain ⟨d', hd', hvalue⟩ := d.exists_ofNumeral?_positional
  rw [ofUnsignedText?, if_neg hinf, if_neg hnan, hd', Option.map_some,
    Decimal.toFloat_congr hvalue]

theorem ofPlainText?_minus (text : List Char) :
    ofPlainText? ("-" ++ String.ofList text) = (ofUnsignedText? text).map (- ·) := by
  have htext : ("-" ++ String.ofList text).toList = '-' :: text := by simp
  rw [ofPlainText?, htext]
  rfl

theorem ofPlainText?_of_notMem {text : List Char} (h : '-' ∉ text) :
    ofPlainText? (String.ofList text) = ofUnsignedText? text := by
  rw [ofPlainText?, String.toList_ofList]
  split
  · exact absurd List.mem_cons_self h
  · rfl

theorem plainText_finite {s : Sign} {m : Nat} {e : Int} {hm : 0 < m}
    (hu : unpack x = .finite s m e hm) :
    plainText x = signText s ++ String.ofList (Decimal.shortest x).positional := by
  rw [plainText, textBy, hu]

/-- The plain text of a finite double is read back with its sign. -/
theorem ofPlainText?_finite {s : Sign} {m : Nat} {e : Int} {hm : 0 < m}
    (hu : unpack x = .finite s m e hm) : ofPlainText? (plainText x) = some x := by
  have hfinite : x.isFinite = true := congrArg UnpackedFloat.isFinite hu
  have hread := ofUnsignedText?_positional (Decimal.shortest x)
  rw [Decimal.toFloat_shortest_eq_abs hfinite] at hread
  rw [plainText_finite hu]
  cases s with
  | positive =>
    have hminus : '-' ∉ (Decimal.shortest x).positional := fun h => by
      cases Decimal.isNumeralChar_of_mem_positional h
    have habs : x.abs = x := unpack_inj (by rw [unpack_abs, hu]; rfl)
    have hsign : signText .positive = "" := rfl
    rw [hsign, String.empty_append, ofPlainText?_of_notMem hminus, hread, habs]
  | negative =>
    have habs : -x.abs = x := unpack_inj (by rw [unpack_neg, unpack_abs, hu]; rfl)
    have hsign : signText .negative = "-" := rfl
    rw [hsign, ofPlainText?_minus, hread, Option.map_some, habs]

/-- The plain text of a double is read back as the double. -/
theorem ofPlainText?_plainText (x : Float) : ofPlainText? (plainText x) = some x := by
  cases hu : unpack x with
  | notANumber =>
    obtain rfl : x = nan := unpack_inj hu
    decide +kernel
  | infinity s =>
    obtain rfl : x = pack (.infinity s) := unpack_inj (hu.trans (unpack_pack_infinity s).symm)
    cases s <;> decide +kernel
  | zero s =>
    obtain rfl : x = pack (.zero s) := unpack_inj (hu.trans (unpack_pack_zero s).symm)
    cases s <;> decide +kernel
  | finite s m e hm => exact ofPlainText?_finite hu

/-- Different doubles have different plain texts. -/
theorem plainText_inj {x y : Float} (h : plainText x = plainText y) : x = y := by
  have hx := ofPlainText?_plainText x
  rw [h, ofPlainText?_plainText] at hx
  exact (Option.some.inj hx).symm

end Binary64

end Calculator
