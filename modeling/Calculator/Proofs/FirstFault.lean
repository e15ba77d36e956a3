import Calculator.Proofs.Lexemes

/-!
# The first fault of a text

The error of a text tells the first place where no lexeme begins, and what stands there. What is
before this place can be read on its own, and what comes after it, from the next blank on, makes
no difference: no name goes on past a blank, so that all lexemes before are cut in the same way.
-/

namespace Calculator.Token

variable {c : Char} {lex text rest p q r : List Char} {token : Token} {tokens : List Token}
  {f : Builtin} {e : ParseError}

/-! ## What is before -/

theorem isAlpha_of_mem_name (f : Builtin) : ∀ c ∈ f.name.toList, c.isAlpha = true := by
  have hall : f.name.toList.all Char.isAlpha = true := by cases f <;> rfl
  exact List.all_eq_true.mp hall

theorem isNumeralChar_blank (h : Text.isBlank c = true) : Decimal.isNumeralChar c = false := by
  refine Bool.eq_false_iff.mpr fun hn => ?_
  rw [isBlank_numeralChar hn] at h
  cases h

/-- Only a numeral ends with a digit or a point, and then neither comes after it. -/
theorem Lexeme.isNumeralChar_getLast (h : Lexeme lex (c :: rest) token)
    (hc : Decimal.isNumeralChar c = true) : ∀ l ∈ lex.getLast?, Decimal.isNumeralChar l = false := by
  intro l hl
  have hmem := List.mem_of_getLast? hl
  cases h with
  | number hrun hend hv =>
    rw [hend c rfl] at hc
    cases hc
  | pi =>
    obtain rfl := List.mem_singleton.mp hmem
    decide
  | e hname =>
    obtain rfl := List.mem_singleton.mp hmem
    decide
  | unknown hname =>
    obtain rfl := List.mem_singleton.mp hmem
    decide
  | function hlongest => exact isNumeralChar_alpha (isAlpha_of_mem_name _ l hmem)
  | operator hop =>
    obtain ⟨c', hs, -, hnumeral, -⟩ := exists_ofChar? hop
    rw [hs] at hmem
    obtain rfl := List.mem_singleton.mp hmem
    exact hnumeral

theorem Spells.isNumeralChar_getLast (h : Spells (c :: rest) text tokens)
    (hc : Decimal.isNumeralChar c = true) :
    ∀ l ∈ text.getLast?, Decimal.isNumeralChar l = false := by
  induction h with
  | nil => nofun
  | @blank b text tokens hb h ih =>
    cases text with
    | nil =>
      rintro _ ⟨⟩
      exact isNumeralChar_blank hb
    | cons d text =>
      rw [List.getLast?_cons_cons]
      exact ih
  | @lexeme lex text token tokens hl h ih =>
    cases text with
    | nil =>
      rw [List.append_nil]
      exact hl.isNumeralChar_getLast hc
    | cons d text =>
      rw [List.getLast?_append_of_ne_nil _ (List.cons_ne_nil d text)]
      exact ih

/-! ## What is after -/

/-- A name ends before a blank. -/
theorem startsWith_of_blank (hr : ∀ c ∈ r.head?, Text.isBlank c = true)
    (h : Builtin.startsWith (p ++ r) f = true) : Builtin.startsWith (p ++ q) f = true := by
  have hname := List.isPrefixOf_iff_prefix.mp h
  refine List.isPrefixOf_iff_prefix.mpr ?_
  obtain hp | ⟨more, hp⟩ := List.prefix_or_prefix_of_prefix hname (List.prefix_append p r)
  · exact hp.trans (List.prefix_append p q)
  · cases more with
    | nil =>
      rw [← hp, List.append_nil]
      exact List.prefix_append p q
    | cons c more =>
      -- the name would have a blank
      have hc : c ∈ f.name.toList := by simp [← hp]
      rw [← hp, List.prefix_append_right_inj] at hname
      obtain ⟨after, rfl⟩ := hname
      have hblank := hr c rfl
      rw [isBlank_alpha (isAlpha_of_mem_name f c hc)] at hblank
      cases hblank

theorem nameStarts_of_blank (hr : ∀ c ∈ r.head?, Text.isBlank c = true)
    (h : NameStarts (p ++ r)) : NameStarts (p ++ q) := by
  obtain ⟨f, hf⟩ := h
  exact ⟨f, startsWith_of_blank hr hf⟩

/-- Of the text after a lexeme, what comes from a blank on makes no difference to it, nor does the
end of the text. -/
theorem Lexeme.of_blank (h : Lexeme lex (p ++ q) token)
    (hr : ∀ c ∈ r.head?, Text.isBlank c = true) : Lexeme lex (p ++ r) token := by
  cases h with
  | number hrun hend hv =>
    refine .number hrun ?_ hv
    cases p with
    | nil => exact fun c hc => isNumeralChar_blank (hr c hc)
    | cons c p => exact hend
  | pi => exact .pi (p ++ r)
  | e hname => exact .e (mt (nameStarts_of_blank (p := 'e' :: p) hr) hname)
  | unknown hname => exact .unknown (mt (nameStarts_of_blank (p := 'x' :: p) hr) hname)
  | function hlongest =>
    refine .function fun g hg => hlongest g ?_
    rw [← List.append_assoc] at hg ⊢
    exact startsWith_of_blank hr hg
  | operator hop => exact .operator hop (p ++ r)

theorem Spells.of_blank (h : Spells (p ++ q) text tokens)
    (hr : ∀ c ∈ r.head?, Text.isBlank c = true) : Spells (p ++ r) text tokens := by
  induction h with
  | nil => exact .nil
  | blank hb h ih => exact .blank hb ih
  | lexeme hl h ih =>
    rw [← List.append_assoc] at hl
    refine .lexeme ?_ ih
    rw [← List.append_assoc]
    exact hl.of_blank hr

theorem Fault.of_blank {offset : Nat} {part : List Char} (h : Fault offset part (p ++ q) e)
    (hr : ∀ c ∈ r.head?, Text.isBlank c = true) : Fault offset part (p ++ r) e := by
  cases h with
  | @character c _ h =>
    refine .character { h with name := ?_ }
    exact mt (nameStarts_of_blank (p := c :: p) hr) h.name
  | number h =>
    refine .number { h with ends := ?_ }
    cases p with
    | nil => exact fun c hc => isNumeralChar_blank (hr c hc)
    | cons c p => exact h.ends

/-! ## The place of the error -/

theorem utf8Len_toList (text : String) : String.utf8Len text.toList = text.utf8ByteSize := by
  rw [← String.utf8ByteSize_ofList, String.ofList_toList]

/-- Where reading fails, the text is written with lexemes up to a fault. -/
theorem exists_fault {text : String} (h : ofText text = .error e) :
    ∃ (before part after : String) (tokens : List Token), text = before ++ part ++ after ∧
      Spells (part.toList ++ after.toList) before.toList tokens ∧
      Fault before.utf8ByteSize part.toList after.toList e := by
  obtain ⟨tokens, hs⟩ | ⟨before, part, after, tokens, e', hsplit, hs, hf⟩ :=
    spells_or_fault 0 text.toList
  · rw [ofText, (written_of_spells hs).scan] at h
    cases h
  · rw [ofText, hsplit, hs.scan_fault hf] at h
    cases h
    refine ⟨String.ofList before, String.ofList part, String.ofList after, tokens, ?_, ?_, ?_⟩
    · rw [← String.toList_inj, hsplit]
      simp
    · simpa using hs
    · rw [String.utf8ByteSize_ofList]
      simpa using hf

/-- A text that is written with lexemes up to a fault has the error for it. -/
theorem ofText_of_fault {before part after : String}
    (hs : Spells (part.toList ++ after.toList) before.toList tokens)
    (hf : Fault before.utf8ByteSize part.toList after.toList e) :
    ofText (before ++ part ++ after) = .error e := by
  rw [← utf8Len_toList, ← Nat.zero_add (String.utf8Len _)] at hf
  rw [ofText, String.toList_append, String.toList_append, List.append_assoc]
  exact hs.scan_fault hf

/-- A text with an error has a first fault, and the error is the one for it. A run of digits and
points is a fault as a whole. What is before the fault is read without error, and every text that
goes on with a blank after it has the same error. -/
theorem ofText_eq_error {text : String} (h : ofText text = .error e) :
    ∃ before part after : String, text = before ++ part ++ after ∧
      Fault before.utf8ByteSize part.toList after.toList e ∧
      (∀ c ∈ part.toList.head?, Decimal.isNumeralChar c = true →
        ∀ l ∈ before.toList.getLast?, Decimal.isNumeralChar l = false) ∧
      (∃ tokens, ofText before = .ok tokens) ∧
      ∀ (blank : Char) (more : String), Text.isBlank blank = true →
        ofText (before ++ part ++ (String.singleton blank ++ more)) = .error e := by
  obtain ⟨before, part, after, tokens, rfl, hs, hf⟩ := exists_fault h
  refine ⟨before, part, after, rfl, hf, ?_, ⟨tokens, ?_⟩, ?_⟩
  · intro c hc
    obtain ⟨c', more, hp, -, -⟩ := hf.lexeme
    rw [hp] at hc hs
    cases hc
    exact hs.isNumeralChar_getLast
  · -- the end of the text is as good as a blank
    have hnil : Spells [] before.toList tokens := hs.of_blank (p := []) nofun
    exact (written_of_spells hnil).scan 0
  · intro blank more hb
    have hr : ∀ c ∈ (String.singleton blank ++ more).toList.head?, Text.isBlank c = true := by
      rw [String.toList_append, String.toList_singleton]
      rintro _ ⟨⟩
      exact hb
    exact ofText_of_fault (hs.of_blank hr) (hf.of_blank (p := []) hr)

/-- The statement above at `π + 1.2.3cosec`: the run of digits and points is the fault. -/
theorem ofText_eq_error_run :
    let e : ParseError := .invalidNumber "1.2.3" 5 10
    ofText "π + 1.2.3cosec" = .error e ∧
      ∃ before part after : String, "π + 1.2.3cosec" = before ++ part ++ after ∧
        Fault before.utf8ByteSize part.toList after.toList e ∧
        (∀ c ∈ part.toList.head?, Decimal.isNumeralChar c = true →
          ∀ l ∈ before.toList.getLast?, Decimal.isNumeralChar l = false) ∧
        (∃ tokens, ofText before = .ok tokens) ∧
        ∀ (blank : Char) (more : String), Text.isBlank blank = true →
          ofText (before ++ part ++ (String.singleton blank ++ more)) = .error e := by
  intro e
  have h : ofText "π + 1.2.3cosec" = .error e := by decide +kernel
  exact ⟨h, ofText_eq_error h⟩

end Calculator.Token
