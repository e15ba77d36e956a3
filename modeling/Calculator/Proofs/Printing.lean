import Calculator.Proofs.FirstFault
import Calculator.Proofs.Positional

/-!
# Printed tokens are read back

The shortest decimal of a double is read back as this double, and its positional notation is one
numeral. So the text of a token is a lexeme, which ends before a blank, and a printed list of
tokens is read back as it was.
-/

namespace Calculator

namespace Decimal

open Binary64 (IsUnsigned)

variable {x : Float}

/-- `m · 2 ^ e` is written exactly. -/
theorem value_ofScaled (m : Nat) (e : Int) : (ofScaled m e).value = m * 2 ^ e := by
  obtain ⟨k, rfl | rfl⟩ := e.eq_nat_or_neg
  · have hneg : (-(k : Int)).toNat = 0 := by omega
    simp [value, ofScaled, hneg, Nat.shiftLeft_eq]
  · have hmin : min (-(k : Int)) 0 = -k := by omega
    have hpos : (-(k : Int)).toNat = 0 := by omega
    have hten : (10 : ℚ) ^ k = 2 ^ k * 5 ^ k := by
      rw [← mul_pow]
      norm_num
    have hfive : ((Nat.pow 5 k : Nat) : ℚ) = 5 ^ k := Nat.cast_pow 5 k
    simp only [value, ofScaled, hmin, hpos, neg_neg, Int.toNat_natCast, Nat.shiftLeft_zero,
      zpow_neg, zpow_natCast, hten, Nat.cast_mul, hfive]
    field_simp

theorem value_ofMagnitude (hx : x.isFinite = true) (hu : IsUnsigned x) :
    (ofMagnitude x).value = Binary64.value x := by
  obtain ⟨m, e, -, -, hunpack, hv⟩ := Binary64.exists_positive hx hu
  rw [ofMagnitude, hunpack, Binary64.signed, hv]
  split_ifs with hm
  · exact value_ofScaled m e
  · obtain rfl : m = 0 := by omega
    simp [value]

/-- The exact decimal of a double is read back as the double. -/
theorem toFloat_ofMagnitude (hx : x.isFinite = true) (hu : IsUnsigned x) :
    (ofMagnitude x).toFloat = x := by
  have hnear := nearest_toFloat (ofMagnitude x)
  rw [value_ofMagnitude hx hu] at hnear
  exact hnear.unique (Binary64.nearest_value hx hu)

/-- A candidate is only taken if it is read back as the double. -/
theorem toFloat_of_candidate? {exact d : Decimal} {k : Nat} (h : candidate? x exact k = some d) :
    d.toFloat = x := by
  simp only [candidate?] at h
  generalize (exact.truncate k).normalize = low at h
  generalize (exact.truncate k).succ.normalize = high at h
  by_cases hlow : low.toFloat = x
  · rw [if_pos hlow] at h
    split_ifs at h with hnear hhigh <;> cases h
    · exact hlow
    · exact hhigh
    · exact hlow
  · rw [if_neg hlow] at h
    split_ifs at h with hhigh
    cases h
    exact hhigh

/-- The shortest decimal of a double is read back as the double. -/
theorem toFloat_shortest (hx : x.isFinite = true) (hu : IsUnsigned x) :
    (shortest x).toFloat = x := by
  simp only [shortest, Binary64.abs_of_isUnsigned hx hu]
  cases h : (List.range' 1 17).findSome?
      fun n => candidate? x (ofMagnitude x) ((ofMagnitude x).digits.length - n) with
  | none => exact toFloat_ofMagnitude hx hu
  | some d =>
    obtain ⟨n, -, hn⟩ := List.exists_of_findSome?_eq_some h
    exact toFloat_of_candidate? hn

end Decimal

namespace Token

open Binary64 (IsUnsigned)

variable {token : Token} {tokens : List Token} {v : Float}

/-- A token that is printed as it is written: no negation, and no number that is infinite or NaN
or has a minus sign. -/
def IsPrintable (token : Token) : Prop :=
  token ≠ .operator (.unary .negate) ∧
    ∀ v, token = .number v → v.isFinite = true ∧ IsUnsigned v

theorem isPrintable_number (hv : v.isFinite = true) (hu : IsUnsigned v) :
    (number v).IsPrintable := by
  refine ⟨nofun, ?_⟩
  rintro _ ⟨⟩
  exact ⟨hv, hu⟩

/-- A number is printed as a decimal that is read back as the number. -/
theorem exists_plainText (hv : v.isFinite = true) (hu : IsUnsigned v) :
    ∃ d : Decimal, (Binary64.plainText v).toList = d.positional ∧ d.toFloat = v := by
  have hsign := hu
  change (Binary64.unpack v).isFinite = true at hv
  rw [IsUnsigned] at hsign
  cases hunpack : Binary64.unpack v with
  | notANumber =>
    rw [hunpack] at hv
    cases hv
  | infinity s =>
    rw [hunpack] at hv
    cases hv
  | zero s =>
    rw [hunpack] at hsign
    obtain rfl : s = .positive := hsign
    have hzero : v = 0 := Binary64.unpack_inj hunpack
    refine ⟨⟨0, 0⟩, ?_, ?_⟩ <;> rw [hzero] <;> decide +kernel
  | finite s m e hm =>
    rw [hunpack] at hsign
    obtain rfl : s = .positive := hsign
    refine ⟨Decimal.shortest v, ?_, Decimal.toFloat_shortest hv hu⟩
    simp [Binary64.plainText, Binary64.textBy, hunpack, Binary64.signText]

/-- A number is printed as a numeral. -/
theorem lexeme_number (hv : v.isFinite = true) (hu : IsUnsigned v) :
    Lexeme (Binary64.plainText v).toList [] (.number v) := by
  obtain ⟨d, htext, hd⟩ := exists_plainText hv hu
  obtain ⟨hnumeral, hvalue⟩ := d.isNumeral_positional
  have hnear := d.nearest_toFloat
  rw [← hvalue, hd] at hnear
  rw [htext]
  exact .number hnumeral nofun hnear

/-- The name of a function is the longest one in it. -/
theorem lexeme_function (f : Builtin) : Lexeme f.name.toList [] (.function f) := by
  refine .function fun g hg hne => ?_
  have hlength := (List.isPrefixOf_iff_prefix.mp hg).length_le
  rw [List.append_nil] at hlength
  exact lt_of_le_of_ne hlength (mt (Builtin.eq_of_startsWith hg (startsWith_name f [])) hne)

/-- The text of a token is a lexeme for it. -/
theorem IsPrintable.lexeme (h : token.IsPrintable) : Lexeme token.text.toList [] token := by
  obtain ⟨hneg, hnumber⟩ := h
  cases token with
  | number v =>
    obtain ⟨hv, hu⟩ := hnumber v rfl
    exact lexeme_number hv hu
  | unknown => exact .unknown (longestAt_eq_none.mp (by decide))
  | function f => exact lexeme_function f
  | operator op => exact .operator (fun hop => hneg (congrArg Token.operator hop)) []

/-- Printed tokens are lexemes with spaces between them. -/
theorem written_listText (h : ∀ token ∈ tokens, token.IsPrintable) :
    Written (listText tokens).toList tokens := by
  induction tokens with
  | nil => exact .blanks (List.forall_mem_nil _)
  | cons token tokens ih =>
    obtain ⟨htoken, htokens⟩ := List.forall_mem_cons.mp h
    have hrest := ih htokens
    have hlex := htoken.lexeme
    cases tokens with
    | nil =>
      have hlast := Written.lexeme (List.forall_mem_nil _) hlex (.blanks (List.forall_mem_nil _))
      simpa [listText] using hlast
    | cons next tokens =>
      -- the space is a blank before the next lexeme
      have hspace : Text.isBlank ' ' = true := by decide
      have hblank : ∀ c ∈ (' ' :: (listText (next :: tokens)).toList).head?,
          Text.isBlank c = true := by
        rintro c ⟨⟩
        exact hspace
      have hlex := Lexeme.of_blank (p := []) (q := []) hlex hblank
      have hwritten := Written.lexeme (List.forall_mem_nil _) hlex (hrest.cons_blank hspace)
      simpa [listText, String.intercalate_cons_cons] using hwritten

/-- Printed tokens are read back as they were. -/
theorem ofText_listText (h : ∀ token ∈ tokens, token.IsPrintable) :
    ofText (listText tokens) = .ok tokens :=
  (written_listText h).scan 0

/-- The statement above for a number that is next to another one. -/
theorem ofText_listText_neighbours :
    let tokens : List Token := [.number 1e-7, .number 1e22, .function .stdev, .unknown]
    (∀ token ∈ tokens, token.IsPrintable) ∧
      listText tokens = "0.0000001 10000000000000000000000 stdev x" ∧
      ofText (listText tokens) = .ok tokens := by
  intro tokens
  have h : ∀ token ∈ tokens, token.IsPrintable := by
    refine List.forall_mem_cons.mpr ⟨isPrintable_number (by decide +kernel) rfl, ?_⟩
    refine List.forall_mem_cons.mpr ⟨isPrintable_number (by decide +kernel) rfl, ?_⟩
    refine List.forall_mem_cons.mpr ⟨⟨nofun, nofun⟩, ?_⟩
    exact List.forall_mem_singleton.mpr ⟨nofun, nofun⟩
  exact ⟨h, by decide +kernel, ofText_listText h⟩

end Token

end Calculator
