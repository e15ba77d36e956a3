import Calculator.Decimal.Numeral
import Calculator.Proofs.NearestDouble

/-!
# Numerals

A run of digits and points is a numeral if it has a digit and at most one point. These are the
runs that a number is read from: what is before the point and what is after it are read as one
row of digits, and the digits after it count as powers of a tenth.
-/

namespace Calculator.Decimal

/-- A run of digits and points with a digit and at most one point. -/
structure IsNumeral (run : List Char) : Prop where
  chars : ∀ c ∈ run, isNumeralChar c = true
  digit : ∃ c ∈ run, c.isDigit = true
  points : run.count '.' ≤ 1

/-- The number that a numeral stands for. -/
def numeralValue (run : List Char) : ℚ :=
  ofDigits (run.filter Char.isDigit) / 10 ^ ((run.dropWhile (· ≠ '.')).drop 1).length

variable {run whole fraction : List Char}

theorem isDigit_of_isNumeralChar {c : Char} (h : isNumeralChar c = true) (hc : c ≠ '.') :
    c.isDigit = true := by
  simpa [isNumeralChar, hc] using h

theorem ne_point_of_isDigit {c : Char} (h : c.isDigit = true) : c ≠ '.' := by
  rintro rfl
  cases h

/-- A run either consists of digits, or of digits before a first point and what follows it. -/
theorem exists_parts (h : ∀ c ∈ run, isNumeralChar c = true) :
    (∀ c ∈ run, c.isDigit = true) ∨
      ∃ whole fraction, run = whole ++ '.' :: fraction ∧ ∀ c ∈ whole, c.isDigit = true := by
  induction run with
  | nil => exact .inl (by simp)
  | cons c run ih =>
    obtain ⟨hc, h⟩ := List.forall_mem_cons.mp h
    by_cases hp : c = '.'
    · exact .inr ⟨[], run, by rw [hp]; rfl, by simp⟩
    · have hd := isDigit_of_isNumeralChar hc hp
      obtain hall | ⟨whole, fraction, rfl, hw⟩ := ih h
      · exact .inl (List.forall_mem_cons.mpr ⟨hd, hall⟩)
      · exact .inr ⟨c :: whole, fraction, rfl, List.forall_mem_cons.mpr ⟨hd, hw⟩⟩

theorem split_digits (h : ∀ c ∈ run, c.isDigit = true) (rest : List Char) :
    (run ++ rest).takeWhile (· ≠ '.') = run ++ rest.takeWhile (· ≠ '.') ∧
      (run ++ rest).dropWhile (· ≠ '.') = rest.dropWhile (· ≠ '.') := by
  have hne : ∀ c ∈ run, decide (c ≠ '.') = true :=
    fun c hc => decide_eq_true (ne_point_of_isDigit (h c hc))
  exact ⟨List.takeWhile_append_of_pos hne, List.dropWhile_append_of_pos hne⟩

theorem ofNumeral?_of_parts {d : Decimal} (ht : run.takeWhile (· ≠ '.') = whole)
    (hd : (run.dropWhile (· ≠ '.')).drop 1 = fraction) :
    ofNumeral? run = some d ↔ whole ++ fraction ≠ [] ∧ (∀ c ∈ whole ++ fraction, c.isDigit = true) ∧
      d = ⟨ofDigits (whole ++ fraction), -fraction.length⟩ := by
  simp only [ofNumeral?, ht, hd]
  generalize whole ++ fraction = digits
  have hiff : (digits.isEmpty || !digits.all Char.isDigit) = true ↔
      ¬ (digits ≠ [] ∧ ∀ c ∈ digits, c.isDigit = true) := by
    rw [← List.all_eq_true]
    cases digits.all Char.isDigit <;> simp
  by_cases hc : digits ≠ [] ∧ ∀ c ∈ digits, c.isDigit = true
  · rw [if_neg (fun h => hiff.mp h hc), Option.some.injEq, eq_comm]
    exact ⟨fun h => ⟨hc.1, hc.2, h⟩, fun h => h.2.2⟩
  · rw [if_pos (hiff.mpr hc)]
    exact ⟨nofun, fun h => absurd ⟨h.1, h.2.1⟩ hc⟩

theorem ofNumeral?_digits {d : Decimal} (h : ∀ c ∈ run, c.isDigit = true) :
    ofNumeral? run = some d ↔ run ≠ [] ∧ d = ⟨ofDigits run, 0⟩ := by
  obtain ⟨ht, hd⟩ := split_digits h []
  simp only [List.append_nil, List.takeWhile_nil, List.dropWhile_nil] at ht hd
  rw [ofNumeral?_of_parts ht (congrArg (List.drop 1) hd), List.drop_nil, List.append_nil]
  exact ⟨fun hc => ⟨hc.1, hc.2.2⟩, fun hc => ⟨hc.1, h, hc.2⟩⟩

theorem ofNumeral?_point {d : Decimal} (h : ∀ c ∈ whole, c.isDigit = true) :
    ofNumeral? (whole ++ '.' :: fraction) = some d ↔
      whole ++ fraction ≠ [] ∧ (∀ c ∈ fraction, c.isDigit = true) ∧
        d = ⟨ofDigits (whole ++ fraction), -fraction.length⟩ := by
  obtain ⟨ht, hd⟩ := split_digits h ('.' :: fraction)
  rw [List.takeWhile_cons_of_neg (by simp), List.append_nil] at ht
  rw [List.dropWhile_cons_of_neg (by simp)] at hd
  rw [ofNumeral?_of_parts ht (congrArg (List.drop 1) hd), List.forall_mem_append]
  exact ⟨fun hc => ⟨hc.1, hc.2.1.2, hc.2.2⟩, fun hc => ⟨hc.1, ⟨h, hc.2.1⟩, hc.2.2⟩⟩

theorem numeralValue_digits (h : ∀ c ∈ run, c.isDigit = true) :
    numeralValue run = ofDigits run := by
  have hd := (split_digits h []).2
  rw [List.append_nil] at hd
  rw [numeralValue, List.filter_eq_self.mpr h, hd]
  simp

theorem numeralValue_point (hw : ∀ c ∈ whole, c.isDigit = true)
    (hf : ∀ c ∈ fraction, c.isDigit = true) :
    numeralValue (whole ++ '.' :: fraction) =
      ofDigits (whole ++ fraction) / 10 ^ fraction.length := by
  have hd := (split_digits hw ('.' :: fraction)).2
  have hp : Char.isDigit '.' = false := rfl
  rw [numeralValue, hd, List.filter_append, List.filter_eq_self.mpr hw,
    List.filter_cons_of_neg (by simp [hp]), List.filter_eq_self.mpr hf]
  simp

theorem count_point_digits (h : ∀ c ∈ run, c.isDigit = true) : run.count '.' = 0 := by
  refine List.count_eq_zero.mpr fun hm => ?_
  exact ne_point_of_isDigit (h _ hm) rfl

/-- A number is read from every numeral. -/
theorem IsNumeral.exists_ofNumeral? (h : IsNumeral run) : ∃ d, ofNumeral? run = some d := by
  obtain ⟨c, hc, hdigit⟩ := h.digit
  obtain hall | ⟨whole, fraction, rfl, hw⟩ := exists_parts h.chars
  · exact ⟨_, (ofNumeral?_digits hall).mpr ⟨List.ne_nil_of_mem hc, rfl⟩⟩
  · have hne : whole ++ fraction ≠ [] := by
      have hcp := ne_point_of_isDigit hdigit
      refine List.ne_nil_of_mem (a := c) ?_
      simpa [hcp] using hc
    -- the first point is the only one
    have hf : ∀ c ∈ fraction, c.isDigit = true := by
      intro c hc
      refine isDigit_of_isNumeralChar (h.chars c (by simp [hc])) ?_
      rintro rfl
      have hpoints := h.points
      rw [List.count_append, List.count_cons_self] at hpoints
      have hpos := List.count_pos_iff.mpr hc
      omega
    exact ⟨_, (ofNumeral?_point hw).mpr ⟨hne, hf, rfl⟩⟩

/-- A run that a number is read from is a numeral for that number. -/
theorem isNumeral_of_ofNumeral? {d : Decimal} (h : ∀ c ∈ run, isNumeralChar c = true)
    (hd : ofNumeral? run = some d) : IsNumeral run ∧ d.value = numeralValue run := by
  obtain hall | ⟨whole, fraction, rfl, hw⟩ := exists_parts h
  · obtain ⟨hn, rfl⟩ := (ofNumeral?_digits hall).mp hd
    obtain ⟨c, hc⟩ := List.exists_mem_of_ne_nil run hn
    refine ⟨⟨h, ⟨c, hc, hall c hc⟩, ?_⟩, ?_⟩
    · rw [count_point_digits hall]
      exact Nat.zero_le 1
    · rw [numeralValue_digits hall, value, zpow_zero, mul_one]
  · obtain ⟨hne, hf, rfl⟩ := (ofNumeral?_point hw).mp hd
    obtain ⟨c, hc⟩ := List.exists_mem_of_ne_nil _ hne
    have hdigit : c.isDigit = true := (List.mem_append.mp hc).elim (hw c) (hf c)
    refine ⟨⟨h, ⟨c, ?_, hdigit⟩, ?_⟩, ?_⟩
    · have hcp := ne_point_of_isDigit hdigit
      simpa [hcp] using hc
    · rw [List.count_append, List.count_cons_self, count_point_digits hw, count_point_digits hf]
    · rw [numeralValue_point hw hf, value, zpow_neg, zpow_natCast, div_eq_mul_inv]

/-- No number is read from a run without digits or with two points, and from no other. -/
theorem ofNumeral?_eq_none_iff (h : ∀ c ∈ run, isNumeralChar c = true) :
    ofNumeral? run = none ↔ (∀ c ∈ run, c.isDigit = false) ∨ 2 ≤ run.count '.' := by
  constructor
  · intro hd
    by_contra hn
    rw [not_or] at hn
    have hdigit : ∃ c ∈ run, c.isDigit = true := by simpa using hn.1
    obtain ⟨d, hd'⟩ := IsNumeral.exists_ofNumeral? ⟨h, hdigit, by omega⟩
    cases hd.symm.trans hd'
  · intro hbad
    cases hd : ofNumeral? run with
    | none => rfl
    | some d =>
      obtain ⟨⟨-, ⟨c, hc, hdigit⟩, hpoints⟩, -⟩ := isNumeral_of_ofNumeral? h hd
      obtain hno | htwo := hbad
      · rw [hno c hc] at hdigit
        cases hdigit
      · omega

end Calculator.Decimal
