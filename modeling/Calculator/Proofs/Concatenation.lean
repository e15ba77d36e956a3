import Calculator.Proofs.FirstFault

/-!
# Texts with a blank between them

What stands before a blank is read as if the text ended there, and what stands after it as if the
text began there, except that its faults are found so many bytes further on. So reading turns two
texts with a blank between them into the tokens of the one before those of the other.
-/

namespace Calculator

/-- The same failure, met so many bytes further into a text. -/
def ParseError.moved (bytes : Nat) : ParseError → ParseError
  | invalidCharacter character index => .invalidCharacter character (index + bytes)
  | invalidNumber text start stop => .invalidNumber text (start + bytes) (stop + bytes)
  | unbalancedParentheses => .unbalancedParentheses
  | emptyExpression => .emptyExpression

namespace Token

variable {a b : String} {ta : List Token} {e : ParseError} {w : Char}

/-! ## The place in the text -/

/-- What a lexeme is does not depend on its place, only the place of a fault does. -/
theorem lexeme_moved (offset bytes : Nat) (c : Char) (rest : List Char) :
    lexeme (offset + bytes) c rest = (lexeme offset c rest).mapError (.moved bytes) := by
  unfold lexeme
  by_cases hc : Decimal.isNumeralChar c = true
  · simp only [if_pos hc]
    cases Decimal.ofNumeral? ((c :: rest).takeWhile Decimal.isNumeralChar) with
    | some d => rfl
    | none =>
      simp only [Except.mapError, ParseError.moved, Nat.add_right_comm]
  · by_cases hp : c = 'π'
    · simp only [if_neg hc, if_pos hp]
      rfl
    · simp only [if_neg hc, if_neg hp]
      cases Builtin.longestAt (c :: rest) with
      | some f => rfl
      | none =>
        by_cases hx : c = 'x'
        · simp only [if_pos hx]
          rfl
        · by_cases he : c = 'e'
          · simp only [if_neg hx, if_pos he]
            rfl
          · simp only [if_neg hx, if_neg he]
            cases Operator.ofChar? c <;> rfl

/-- A text is read alike wherever it stands. -/
theorem scan_moved (offset bytes skip : Nat) (text : List Char) :
    scan (offset + bytes) skip text = (scan offset skip text).mapError (.moved bytes) := by
  induction text generalizing offset skip with
  | nil => cases skip <;> rfl
  | cons c rest ih =>
    cases skip with
    | succ skip =>
      rw [scan, scan, Nat.add_right_comm]
      exact ih (offset + c.utf8Size) skip
    | zero =>
      rw [scan, scan, Nat.add_right_comm]
      by_cases hb : Text.isBlank c = true
      · rw [if_pos hb, if_pos hb]
        exact ih (offset + c.utf8Size) 0
      · rw [if_neg hb, if_neg hb, lexeme_moved]
        cases lexeme offset c rest with
        | error e => rfl
        | ok read =>
          simp only [Except.mapError, bind, Except.bind, ih]
          cases scan (offset + c.utf8Size) (read.2 - 1) rest <;> rfl

/-! ## Before the blank and after it -/

theorem toList_append_blank (a b : String) (w : Char) :
    (a ++ String.singleton w ++ b).toList = a.toList ++ w :: b.toList := by
  simp

/-- What is before a blank is written as it is where the text ends. -/
theorem spells_of_ofText (h : ofText a = .ok ta) (hw : Text.isBlank w = true) (rest : List Char) :
    Spells (w :: rest) a.toList ta := by
  have hs : Spells [] a.toList ta := (written_of_scan h).spells
  refine hs.of_blank (p := []) ?_
  rintro _ ⟨⟩
  exact hw

/-- Tokens before a blank come first, and then what is read after it, moved to its place. -/
theorem ofText_append_of_ok (h : ofText a = .ok ta) (hw : Text.isBlank w = true) (b : String) :
    ofText (a ++ String.singleton w ++ b) =
      ((ofText b).mapError (.moved (a ++ String.singleton w).utf8ByteSize)).map (ta ++ ·) := by
  have hsize : (a ++ String.singleton w).utf8ByteSize = String.utf8Len a.toList + w.utf8Size := by
    rw [utf8Len_toList, String.utf8ByteSize_append, String.utf8ByteSize_singleton]
  rw [ofText, toList_append_blank, (spells_of_ofText h hw b.toList).scan, scan_blank _ hw,
    Nat.add_assoc, ← hsize, scan_moved, ofText]

/-- A fault before a blank is the first one of the text, whatever comes after the blank. -/
theorem ofText_append_of_error (h : ofText a = .error e) (hw : Text.isBlank w = true)
    (b : String) : ofText (a ++ String.singleton w ++ b) = .error e := by
  obtain ⟨before, part, after, tokens, rfl, hs, hf⟩ := exists_fault h
  have hr : ∀ c ∈ (w :: b.toList).head?, Text.isBlank c = true := by
    rintro _ ⟨⟩
    exact hw
  have hs' : Spells (part.toList ++ (after ++ String.singleton w ++ b).toList) before.toList
      tokens := by
    rw [← List.append_nil (part.toList ++ after.toList)] at hs
    rw [toList_append_blank, ← List.append_assoc]
    exact hs.of_blank hr
  have hf' : Fault before.utf8ByteSize part.toList (after ++ String.singleton w ++ b).toList e := by
    rw [← List.append_nil after.toList] at hf
    rw [toList_append_blank]
    exact hf.of_blank hr
  have hfirst := ofText_of_fault hs' hf'
  rwa [← String.append_assoc, ← String.append_assoc] at hfirst

/-- Reading two texts with a blank between them. If both can be read, the tokens of the first come
before those of the second. If only the first can, the fault is the one of the second, as many
bytes further on as stand before it. If the first cannot, its fault is the one of the whole. -/
theorem ofText_append_blank (hw : Text.isBlank w = true) (a b : String) :
    (∀ ta tb, ofText a = .ok ta → ofText b = .ok tb →
      ofText (a ++ String.singleton w ++ b) = .ok (ta ++ tb)) ∧
    (∀ ta e, ofText a = .ok ta → ofText b = .error e →
      ofText (a ++ String.singleton w ++ b) =
        .error (e.moved (a ++ String.singleton w).utf8ByteSize)) ∧
    (∀ e, ofText a = .error e → ofText (a ++ String.singleton w ++ b) = .error e) := by
  refine ⟨?_, ?_, ?_⟩
  · intro ta tb ha hb
    rw [ofText_append_of_ok ha hw, hb]
    rfl
  · intro ta e ha hb
    rw [ofText_append_of_ok ha hw, hb]
    rfl
  · intro e ha
    exact ofText_append_of_error ha hw b

/-- The statement above with the blank of two bytes that does not break a line: after `2π` and
before `cos`, before the run `1.2.3`, and after the character `#`. -/
theorem ofText_append_blank_noBreak :
    let w : Char := '\u00a0'
    Text.isBlank w = true ∧
    (ofText "2π" = .ok [.number 2, .number pi] ∧ ofText "cos" = .ok [.function .cos] ∧
      ofText ("2π" ++ String.singleton w ++ "cos") =
        .ok [.number 2, .number pi, .function .cos]) ∧
    (ofText "x1.2.3" = .error (.invalidNumber "1.2.3" 1 6) ∧
      ofText ("2π" ++ String.singleton w ++ "x1.2.3") =
        .error (.invalidNumber "1.2.3" 6 11)) ∧
    (ofText "π#" = .error (.invalidCharacter '#' 2) ∧
      ofText ("π#" ++ String.singleton w ++ "cos") = .error (.invalidCharacter '#' 2)) := by
  intro w
  have hw : Text.isBlank w = true := rfl
  have hconstant : ofText "2π" = .ok [.number 2, .number pi] := by decide +kernel
  have hname : ofText "cos" = .ok [.function .cos] := by decide +kernel
  have hrun : ofText "x1.2.3" = .error (.invalidNumber "1.2.3" 1 6) := by decide +kernel
  have hcharacter : ofText "π#" = .error (.invalidCharacter '#' 2) := by decide +kernel
  exact ⟨hw,
    ⟨hconstant, hname, (ofText_append_blank hw "2π" "cos").1 _ _ hconstant hname⟩,
    ⟨hrun, (ofText_append_blank hw "2π" "x1.2.3").2.1 _ _ hconstant hrun⟩,
    ⟨hcharacter, (ofText_append_blank hw "π#" "cos").2.2 _ hcharacter⟩⟩

end Token

end Calculator
