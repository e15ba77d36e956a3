import Calculator.Proofs.LongestName
import Calculator.Proofs.Numerals
import Calculator.Token.Lexer

/-!
# The lexical grammar

A text is a row of lexemes with blanks between them where wanted, and reading it finds exactly
this row. What a lexeme is depends on the text after it only in two ways: a numeral ends where
no digit or point follows, and a name is the longest that starts there.
-/

namespace Calculator.Token

/-- Does the name of some function start the text? -/
def NameStarts (text : List Char) : Prop := ∃ f, Builtin.startsWith text f = true

/-- A lexeme before the rest of a text, and its token. -/
inductive Lexeme : (lexeme rest : List Char) → Token → Prop where
  | number {run rest : List Char} {v : Float} (hrun : Decimal.IsNumeral run)
    (hend : ∀ c ∈ rest.head?, Decimal.isNumeralChar c = false)
    (hv : Binary64.Nearest (Decimal.numeralValue run) v) : Lexeme run rest (.number v)
  | pi (rest : List Char) : Lexeme ['π'] rest (.number pi)
  | e {rest : List Char} (hname : ¬ NameStarts ('e' :: rest)) : Lexeme ['e'] rest (.number e)
  | unknown {rest : List Char} (hname : ¬ NameStarts ('x' :: rest)) : Lexeme ['x'] rest .unknown
  | function {f : Builtin} {rest : List Char}
    (hlongest : ∀ g, Builtin.startsWith (f.name.toList ++ rest) g = true → g ≠ f →
      g.nameLength < f.nameLength) : Lexeme f.name.toList rest (.function f)
  | operator {op : Operator} (hop : op ≠ .unary .negate) (rest : List Char) :
    Lexeme op.symbol.toList rest (.operator op)

/-- No lexeme begins with the character, before the rest of a text, nor is it a blank. -/
structure BeginsNothing (c : Char) (rest : List Char) : Prop where
  blank : Text.isBlank c = false
  numeral : Decimal.isNumeralChar c = false
  ne_pi : c ≠ 'π'
  ne_x : c ≠ 'x'
  ne_e : c ≠ 'e'
  operator : Operator.ofChar? c = none
  name : ¬ NameStarts (c :: rest)

/-- All digits and points before the rest of a text, which are no numeral. -/
structure BadRun (run rest : List Char) : Prop where
  ne_nil : run ≠ []
  chars : ∀ c ∈ run, Decimal.isNumeralChar c = true
  ends : ∀ c ∈ rest.head?, Decimal.isNumeralChar c = false
  bad : (∀ c ∈ run, c.isDigit = false) ∨ 2 ≤ run.count '.'

/-- What stands in the place of a lexeme, so many bytes into a text and before the rest of it, and
the error for it. -/
inductive Fault (offset : Nat) : (part rest : List Char) → ParseError → Prop where
  | character {c : Char} {rest : List Char} (h : BeginsNothing c rest) :
    Fault offset [c] rest (.invalidCharacter c offset)
  | number {run rest : List Char} (h : BadRun run rest) :
    Fault offset run rest
      (.invalidNumber (String.ofList run) offset (offset + (String.ofList run).utf8ByteSize))

/-- A text that is written with lexemes, and blanks around them, and its tokens. -/
inductive Written : List Char → List Token → Prop where
  | blanks {blanks : List Char} (h : ∀ c ∈ blanks, Text.isBlank c = true) : Written blanks []
  | lexeme {blanks lexeme rest : List Char} {token : Token} {tokens : List Token}
    (hb : ∀ c ∈ blanks, Text.isBlank c = true) (hl : Lexeme lexeme rest token)
    (hr : Written rest tokens) : Written (blanks ++ (lexeme ++ rest)) (token :: tokens)

variable {c : Char} {text rest : List Char} {token : Token} {f : Builtin}

/-! ## What characters start -/

theorem longestAt_eq_none : Builtin.longestAt text = none ↔ ¬ NameStarts text := by
  rw [Builtin.longestAt_eq_none, NameStarts, not_exists]
  simp

/-- The name of a function starts with a letter. -/
theorem exists_name_eq_cons (f : Builtin) :
    ∃ c cs, f.name.toList = c :: cs ∧ c.isAlpha = true := by
  cases f <;> exact ⟨_, _, rfl, rfl⟩

theorem startsWith_cons (h : Builtin.startsWith (c :: rest) f = true) : c.isAlpha = true := by
  obtain ⟨c', cs, hn, ha⟩ := exists_name_eq_cons f
  rw [Builtin.startsWith, hn] at h
  simp only [List.isPrefixOf, Bool.and_eq_true, beq_iff_eq] at h
  rw [← h.1]
  exact ha

theorem startsWith_name (f : Builtin) (rest : List Char) :
    Builtin.startsWith (f.name.toList ++ rest) f = true :=
  List.isPrefixOf_iff_prefix.mpr (List.prefix_append _ _)

theorem exists_ofChar? {op : Operator} (hop : op ≠ .unary .negate) :
    ∃ c, op.symbol.toList = [c] ∧ Operator.ofChar? c = some op ∧
      Decimal.isNumeralChar c = false ∧ c.isAlpha = false ∧ c ≠ 'π' ∧ Text.isBlank c = false := by
  rcases op with u | b | _ | _ | _
  · cases u with
    | factorial => exact ⟨'!', by decide⟩
    | bar => exact ⟨'|', by decide⟩
    | negate => exact (hop rfl).elim
  · cases b with
    | plus => exact ⟨'+', by decide⟩
    | minus => exact ⟨'-', by decide⟩
    | times => exact ⟨'*', by decide⟩
    | divide => exact ⟨'/', by decide⟩
    | modulo => exact ⟨'%', by decide⟩
    | power => exact ⟨'^', by decide⟩
    | equals => exact ⟨'=', by decide⟩
  · exact ⟨'(', by decide⟩
  · exact ⟨')', by decide⟩
  · exact ⟨',', by decide⟩

theorem symbol_of_ofChar? {op : Operator} (h : Operator.ofChar? c = some op) :
    op ≠ .unary .negate ∧ op.symbol.toList = [c] := by
  unfold Operator.ofChar? at h
  split at h <;> cases h <;> exact ⟨nofun, rfl⟩

/-- Digits and points have codes from 46 to 57. -/
theorem toNat_of_isNumeralChar (h : Decimal.isNumeralChar c = true) :
    46 ≤ c.toNat ∧ c.toNat ≤ 57 := by
  by_cases hp : c = '.'
  · rw [hp]
    decide
  · have hd := Decimal.isDigit_of_isNumeralChar h hp
    simp only [Char.isDigit, Bool.and_eq_true, decide_eq_true_eq, ge_iff_le,
      UInt32.le_iff_toNat_le] at hd
    have h0 : '0'.val.toNat = 48 := rfl
    have h9 : '9'.val.toNat = 57 := rfl
    change 46 ≤ c.val.toNat ∧ c.val.toNat ≤ 57
    omega

/-- Letters have codes from 65 to 122. -/
theorem toNat_of_isAlpha (h : c.isAlpha = true) : 65 ≤ c.toNat ∧ c.toNat ≤ 122 := by
  simp only [Char.isAlpha, Char.isUpper, Char.isLower, Bool.or_eq_true, Bool.and_eq_true,
    decide_eq_true_eq, ge_iff_le, UInt32.le_iff_toNat_le] at h
  have hA : 'A'.val.toNat = 65 := rfl
  have hZ : 'Z'.val.toNat = 90 := rfl
  have ha : 'a'.val.toNat = 97 := rfl
  have hz : 'z'.val.toNat = 122 := rfl
  change 65 ≤ c.val.toNat ∧ c.val.toNat ≤ 122
  omega

theorem isBlank_eq_false (h : 33 ≤ c.toNat) (h' : c.toNat ≤ 126) : Text.isBlank c = false := by
  simp only [Text.isBlank, Bool.or_eq_false_iff, Bool.and_eq_false_iff, decide_eq_false_iff_not,
    beq_eq_false_iff_ne]
  omega

theorem isBlank_numeralChar (h : Decimal.isNumeralChar c = true) : Text.isBlank c = false := by
  have hrange := toNat_of_isNumeralChar h
  exact isBlank_eq_false (by omega) (by omega)

theorem isBlank_alpha (h : c.isAlpha = true) : Text.isBlank c = false := by
  have hrange := toNat_of_isAlpha h
  exact isBlank_eq_false (by omega) (by omega)

theorem isNumeralChar_alpha (h : c.isAlpha = true) : Decimal.isNumeralChar c = false := by
  have hrange := toNat_of_isAlpha h
  refine Bool.eq_false_iff.mpr fun hn => ?_
  have := toNat_of_isNumeralChar hn
  omega

/-! ## One lexeme -/

theorem takeWhile_run {run : List Char} (hrun : ∀ c ∈ run, Decimal.isNumeralChar c = true)
    (hend : ∀ c ∈ rest.head?, Decimal.isNumeralChar c = false) :
    (run ++ rest).takeWhile Decimal.isNumeralChar = run := by
  rw [List.takeWhile_append_of_pos hrun]
  cases rest with
  | nil => simp
  | cons c rest =>
    rw [List.takeWhile_cons_of_neg (by simp [hend c rfl]), List.append_nil]

theorem lexeme_of_numeral {run : List Char} {d : Decimal} (offset : Nat)
    (hc : Decimal.isNumeralChar c = true)
    (hrun : (c :: rest).takeWhile Decimal.isNumeralChar = run)
    (hd : Decimal.ofNumeral? run = some d) :
    lexeme offset c rest = .ok (.number d.toFloat, run.length) := by
  simp only [lexeme, hc, if_true, hrun, hd]

theorem lexeme_of_invalidNumber {run : List Char} (offset : Nat)
    (hc : Decimal.isNumeralChar c = true)
    (hrun : (c :: rest).takeWhile Decimal.isNumeralChar = run)
    (hd : Decimal.ofNumeral? run = none) :
    lexeme offset c rest =
      .error (.invalidNumber (String.ofList run) offset (offset + run.length)) := by
  simp only [lexeme, hc, if_true, hrun, hd]

theorem lexeme_of_name (offset : Nat) (hc : Decimal.isNumeralChar c = false) (hp : c ≠ 'π')
    (hf : Builtin.longestAt (c :: rest) = some f) :
    lexeme offset c rest = .ok (.function f, f.nameLength) := by
  simp only [lexeme, hc, Bool.false_eq_true, if_false, hp, hf]

theorem lexeme_unknown (offset : Nat) (hn : ¬ NameStarts ('x' :: rest)) :
    lexeme offset 'x' rest = .ok (.unknown, 1) := by
  have hc : Decimal.isNumeralChar 'x' = false := by decide
  have hp : 'x' ≠ 'π' := by decide
  simp only [lexeme, hc, Bool.false_eq_true, if_false, hp, longestAt_eq_none.mpr hn, if_true]

theorem lexeme_e (offset : Nat) (hn : ¬ NameStarts ('e' :: rest)) :
    lexeme offset 'e' rest = .ok (.number e, 1) := by
  have hc : Decimal.isNumeralChar 'e' = false := by decide
  have hp : 'e' ≠ 'π' := by decide
  have hx : 'e' ≠ 'x' := by decide
  simp only [lexeme, hc, Bool.false_eq_true, if_false, hp, longestAt_eq_none.mpr hn, hx, if_true]

theorem lexeme_of_operator {op : Operator} (offset : Nat)
    (hc : Decimal.isNumeralChar c = false) (hp : c ≠ 'π') (hn : ¬ NameStarts (c :: rest))
    (hx : c ≠ 'x') (he : c ≠ 'e') (ho : Operator.ofChar? c = some op) :
    lexeme offset c rest = .ok (.operator op, 1) := by
  simp only [lexeme, hc, Bool.false_eq_true, if_false, hp, longestAt_eq_none.mpr hn, hx, he, ho]

theorem lexeme_of_invalidCharacter (offset : Nat) (hc : Decimal.isNumeralChar c = false)
    (hp : c ≠ 'π') (hn : ¬ NameStarts (c :: rest)) (hx : c ≠ 'x') (he : c ≠ 'e')
    (ho : Operator.ofChar? c = none) :
    lexeme offset c rest = .error (.invalidCharacter c offset) := by
  simp only [lexeme, hc, Bool.false_eq_true, if_false, hp, longestAt_eq_none.mpr hn, hx, he, ho]

/-- A lexeme is read as its token, and as long as it is. -/
theorem Lexeme.lexeme {lex : List Char} (h : Lexeme lex rest token) (offset : Nat) :
    ∃ c more, lex = c :: more ∧ Text.isBlank c = false ∧
      lexeme offset c (more ++ rest) = .ok (token, lex.length) := by
  cases h with
  | number hrun hend hv =>
    obtain ⟨d, hd⟩ := hrun.exists_ofNumeral?
    rw [← (Decimal.isNumeral_of_ofNumeral? hrun.chars hd).2] at hv
    rw [hv.unique (Decimal.nearest_toFloat d)]
    have htake := takeWhile_run hrun.chars hend
    cases lex with
    | nil =>
      obtain ⟨c, hc, -⟩ := hrun.digit
      cases hc
    | cons c more =>
      have hc := hrun.chars c List.mem_cons_self
      exact ⟨c, more, rfl, isBlank_numeralChar hc, lexeme_of_numeral offset hc htake hd⟩
  | pi rest => exact ⟨'π', [], rfl, by decide, rfl⟩
  | e hname => exact ⟨'e', [], rfl, by decide, lexeme_e offset hname⟩
  | unknown hname => exact ⟨'x', [], rfl, by decide, lexeme_unknown offset hname⟩
  | @function f rest hlongest =>
    obtain ⟨c, more, hname, ha⟩ := exists_name_eq_cons f
    have hf : Builtin.longestAt (f.name.toList ++ rest) = some f :=
      Builtin.longestAt_eq_some.mpr ⟨startsWith_name f rest, hlongest⟩
    rw [hname] at hf
    have hp : c ≠ 'π' := by
      rintro rfl
      cases ha
    exact ⟨c, more, hname, isBlank_alpha ha,
      lexeme_of_name offset (isNumeralChar_alpha ha) hp hf⟩
  | @operator op hop rest =>
    obtain ⟨c, hs, hc, hnum, ha, hp, hb⟩ := exists_ofChar? hop
    have hn : ¬ NameStarts (c :: rest) := by
      rintro ⟨f, hf⟩
      rw [startsWith_cons hf] at ha
      cases ha
    have hx : c ≠ 'x' := by
      rintro rfl
      cases ha
    have he : c ≠ 'e' := by
      rintro rfl
      cases ha
    rw [hs]
    exact ⟨c, [], rfl, hb, lexeme_of_operator offset hnum hp hn hx he hc⟩

theorem utf8Size_numeralChar (h : Decimal.isNumeralChar c = true) : c.utf8Size = 1 := by
  have hrange := toNat_of_isNumeralChar h
  rw [Char.utf8Size_eq_one_iff, UInt32.le_iff_toNat_le]
  change c.toNat ≤ 127
  omega

/-- Each digit and each point is one byte. -/
theorem utf8ByteSize_run {run : List Char} (h : ∀ c ∈ run, Decimal.isNumeralChar c = true) :
    (String.ofList run).utf8ByteSize = run.length := by
  rw [String.utf8ByteSize_ofList]
  induction run with
  | nil => rfl
  | cons c run ih =>
    obtain ⟨hc, h⟩ := List.forall_mem_cons.mp h
    rw [String.utf8Len_cons, ih h, utf8Size_numeralChar hc, List.length_cons]

/-- At a fault no lexeme is read. -/
theorem Fault.lexeme {offset : Nat} {part : List Char} {e : ParseError}
    (h : Fault offset part rest e) :
    ∃ c more, part = c :: more ∧ Text.isBlank c = false ∧
      lexeme offset c (more ++ rest) = .error e := by
  cases h with
  | @character c rest h =>
    exact ⟨c, [], rfl, h.blank,
      lexeme_of_invalidCharacter offset h.numeral h.ne_pi h.name h.ne_x h.ne_e h.operator⟩
  | number h =>
    cases part with
    | nil => exact absurd rfl h.ne_nil
    | cons c more =>
      have hc := h.chars c List.mem_cons_self
      have hd := (Decimal.ofNumeral?_eq_none_iff h.chars).mpr h.bad
      rw [utf8ByteSize_run h.chars]
      exact ⟨c, more, rfl, isBlank_numeralChar hc,
        lexeme_of_invalidNumber offset hc (takeWhile_run h.chars h.ends) hd⟩

/-- With a character that is no blank, either a lexeme begins or a fault. -/
theorem lexeme_or_fault (offset : Nat) (hb : Text.isBlank c = false) (rest : List Char) :
    (∃ lex after token, c :: rest = lex ++ after ∧ lex ≠ [] ∧ Lexeme lex after token) ∨
    ∃ part after e, c :: rest = part ++ after ∧ Fault offset part after e := by
  by_cases hc : Decimal.isNumeralChar c = true
  · obtain ⟨run, hrun⟩ : ∃ run, (c :: rest).takeWhile Decimal.isNumeralChar = run := ⟨_, rfl⟩
    have hsplit : c :: rest = run ++ (c :: rest).dropWhile Decimal.isNumeralChar := by
      rw [← hrun, List.takeWhile_append_dropWhile]
    have hchars : ∀ c' ∈ run, Decimal.isNumeralChar c' = true := by
      rw [← hrun]
      exact List.all_eq_true.mp List.all_takeWhile
    have hend : ∀ c' ∈ ((c :: rest).dropWhile Decimal.isNumeralChar).head?,
        Decimal.isNumeralChar c' = false := by
      intro c' hm
      have hnot := List.head?_dropWhile_not Decimal.isNumeralChar (c :: rest)
      rw [hm] at hnot
      simpa using hnot
    have hne : run ≠ [] := by
      rw [← hrun, List.takeWhile_cons_of_pos hc]
      exact List.cons_ne_nil _ _
    cases hd : Decimal.ofNumeral? run with
    | none =>
      have hbad := (Decimal.ofNumeral?_eq_none_iff hchars).mp hd
      exact .inr ⟨run, _, _, hsplit, .number ⟨hne, hchars, hend, hbad⟩⟩
    | some d =>
      obtain ⟨hnum, hvalue⟩ := Decimal.isNumeral_of_ofNumeral? hchars hd
      have hnear := Decimal.nearest_toFloat d
      rw [hvalue] at hnear
      exact .inl ⟨run, _, _, hsplit, hne, .number hnum hend hnear⟩
  · replace hc := Bool.eq_false_iff.mpr hc
    by_cases hp : c = 'π'
    · subst hp
      exact .inl ⟨['π'], rest, _, rfl, List.cons_ne_nil _ _, .pi rest⟩
    · cases hf : Builtin.longestAt (c :: rest) with
      | some f =>
        obtain ⟨hs, hlongest⟩ := Builtin.longestAt_eq_some.mp hf
        obtain ⟨after, hafter⟩ := List.isPrefixOf_iff_prefix.mp hs
        obtain ⟨c', cs, hname, -⟩ := exists_name_eq_cons f
        rw [← hafter] at hlongest
        refine .inl ⟨f.name.toList, after, _, hafter.symm, ?_, .function hlongest⟩
        rw [hname]
        exact List.cons_ne_nil _ _
      | none =>
        have hname := longestAt_eq_none.mp hf
        by_cases hx : c = 'x'
        · subst hx
          exact .inl ⟨['x'], rest, _, rfl, List.cons_ne_nil _ _, .unknown hname⟩
        · by_cases he : c = 'e'
          · subst he
            exact .inl ⟨['e'], rest, _, rfl, List.cons_ne_nil _ _, .e hname⟩
          · cases ho : Operator.ofChar? c with
            | none =>
              exact .inr ⟨[c], rest, _, rfl, .character ⟨hb, hc, hp, hx, he, ho, hname⟩⟩
            | some op =>
              obtain ⟨hop, hs⟩ := symbol_of_ofChar? ho
              have hlex := Lexeme.operator hop rest
              rw [hs] at hlex
              exact .inl ⟨[c], rest, _, rfl, List.cons_ne_nil _ _, hlex⟩

/-! ## A whole text -/

variable {tokens : List Token}

/-- Before `rest`, a text is written with lexemes as they end there, and blanks around them. -/
inductive Spells (rest : List Char) : List Char → List Token → Prop where
  | nil : Spells rest [] []
  | blank {c : Char} {text : List Char} {tokens : List Token} (hb : Text.isBlank c = true)
    (h : Spells rest text tokens) : Spells rest (c :: text) tokens
  | lexeme {lexeme text : List Char} {token : Token} {tokens : List Token}
    (hl : Lexeme lexeme (text ++ rest) token) (h : Spells rest text tokens) :
    Spells rest (lexeme ++ text) (token :: tokens)

theorem scan_skip (offset k : Nat) (text : List Char) :
    scan offset k text = scan (offset + String.utf8Len (text.take k)) 0 (text.drop k) := by
  induction k generalizing offset text with
  | zero => rfl
  | succ k ih =>
    cases text with
    | nil => rfl
    | cons c text =>
      rw [scan, ih, List.take_succ_cons, List.drop_succ_cons, String.utf8Len_cons]
      congr 1
      omega

theorem scan_blank (offset : Nat) (hb : Text.isBlank c = true) (rest : List Char) :
    scan offset 0 (c :: rest) = scan (offset + c.utf8Size) 0 rest := by
  rw [scan, if_pos hb]

/-- A lexeme at the start of a text is read first, and then the rest. -/
theorem scan_lexeme {offset : Nat} {more : List Char} (hb : Text.isBlank c = false)
    (hl : lexeme offset c (more ++ rest) = .ok (token, (c :: more).length)) :
    scan offset 0 (c :: more ++ rest) =
      (scan (offset + String.utf8Len (c :: more)) 0 rest).map (token :: ·) := by
  have hskip := scan_skip (offset + c.utf8Size) more.length (more ++ rest)
  rw [List.take_left, List.drop_left] at hskip
  rw [List.cons_append, scan, if_neg (by simp [hb]), hl, String.utf8Len_cons,
    Nat.add_comm (String.utf8Len more), ← Nat.add_assoc, ← hskip]
  rfl

/-- What is written before the rest of a text is read first, whatever the rest is. -/
theorem Spells.scan (h : Spells rest text tokens) (offset : Nat) :
    scan offset 0 (text ++ rest) =
      (scan (offset + String.utf8Len text) 0 rest).map (tokens ++ ·) := by
  induction h generalizing offset with
  | nil =>
    change Token.scan offset 0 rest = (Token.scan offset 0 rest).map _
    cases Token.scan offset 0 rest <;> rfl
  | @blank c text tokens hb h ih =>
    rw [List.cons_append, scan_blank offset hb, ih, String.utf8Len_cons,
      Nat.add_comm (String.utf8Len text), Nat.add_assoc]
  | @lexeme lex text token tokens hl h ih =>
    obtain ⟨c, more, rfl, hc, hread⟩ := hl.lexeme offset
    rw [List.append_assoc, scan_lexeme hc hread, ih, String.utf8Len_append, Nat.add_assoc]
    cases Token.scan _ 0 rest <;> rfl

/-- At a fault, reading ends with the error for it. -/
theorem Spells.scan_fault {offset : Nat} {part : List Char} {e : ParseError}
    (h : Spells (part ++ rest) text tokens)
    (hf : Fault (offset + String.utf8Len text) part rest e) :
    Token.scan offset 0 (text ++ (part ++ rest)) = .error e := by
  obtain ⟨c, more, rfl, hb, he⟩ := hf.lexeme
  rw [h.scan, List.cons_append, Token.scan, if_neg (by simp [hb]), he]
  rfl

/-- A text is written with lexemes, at least up to the first fault. -/
theorem spells_or_fault (offset : Nat) (text : List Char) :
    (∃ tokens, Spells [] text tokens) ∨
    ∃ before part rest tokens e, text = before ++ (part ++ rest) ∧
      Spells (part ++ rest) before tokens ∧ Fault (offset + String.utf8Len before) part rest e := by
  -- by the length: a lexeme may take many characters at once
  induction hlen : text.length using Nat.strongRecOn generalizing offset text with
  | ind k ih =>
    cases text with
    | nil => exact .inl ⟨[], .nil⟩
    | cons c rest =>
      cases hb : Text.isBlank c with
      | true =>
        obtain ⟨tokens, hs⟩ | ⟨before, part, after, tokens, e, rfl, hs, hf⟩ :=
          ih rest.length (by simp [← hlen]) (offset + c.utf8Size) rest rfl
        · exact .inl ⟨tokens, .blank hb hs⟩
        · refine .inr ⟨c :: before, part, after, tokens, e, rfl, .blank hb hs, ?_⟩
          rw [String.utf8Len_cons, Nat.add_comm (String.utf8Len before), ← Nat.add_assoc]
          exact hf
      | false =>
        obtain ⟨lex, after, token, hsplit, hne, hlex⟩ | ⟨part, after, e, hsplit, hf⟩ :=
          lexeme_or_fault offset hb rest
        · have hpos := List.length_pos_iff.mpr hne
          have hlt : after.length < k := by
            rw [← hlen, hsplit, List.length_append]
            omega
          rw [hsplit]
          obtain ⟨tokens, hs⟩ | ⟨before, part, after, tokens, e, rfl, hs, hf⟩ :=
            ih after.length hlt (offset + String.utf8Len lex) after rfl
          · rw [← List.append_nil after] at hlex
            exact .inl ⟨token :: tokens, .lexeme hlex hs⟩
          · refine .inr ⟨lex ++ before, part, after, token :: tokens, e, ?_,
              .lexeme hlex hs, ?_⟩
            · rw [List.append_assoc]
            · rw [String.utf8Len_append, ← Nat.add_assoc]
              exact hf
        · exact .inr ⟨[], part, after, [], e, hsplit, .nil, hf⟩

theorem Written.cons_blank (h : Written text tokens) (hb : Text.isBlank c = true) :
    Written (c :: text) tokens := by
  cases h with
  | blanks h => exact .blanks (List.forall_mem_cons.mpr ⟨hb, h⟩)
  | lexeme h hl hr => exact .lexeme (List.forall_mem_cons.mpr ⟨hb, h⟩) hl hr

theorem written_of_spells (h : Spells [] text tokens) : Written text tokens := by
  induction h with
  | nil => exact .blanks (List.forall_mem_nil _)
  | blank hb h ih => exact ih.cons_blank hb
  | lexeme hl h ih =>
    rw [List.append_nil] at hl
    exact .lexeme (List.forall_mem_nil _) hl ih

theorem Spells.blanks {blanks : List Char} (hb : ∀ c ∈ blanks, Text.isBlank c = true)
    (h : Spells rest text tokens) : Spells rest (blanks ++ text) tokens := by
  induction blanks with
  | nil => exact h
  | cons c blanks ih =>
    obtain ⟨hc, hb⟩ := List.forall_mem_cons.mp hb
    exact .blank hc (ih hb)

theorem Written.spells (h : Written text tokens) : Spells [] text tokens := by
  induction h with
  | blanks hb => simpa using Spells.nil.blanks hb
  | @lexeme blanks lex rest token tokens hb hl hr ih =>
    rw [← List.append_nil rest] at hl
    exact (Spells.lexeme hl ih).blanks hb

/-- How a text is written is what is read from it. -/
theorem Written.scan (h : Written text tokens) (offset : Nat) :
    scan offset 0 text = .ok tokens := by
  have hs := h.spells.scan offset
  rw [List.append_nil] at hs
  rw [hs, Token.scan, Except.map, List.append_nil]

/-- What is read from a text is how it is written. -/
theorem written_of_scan {offset : Nat} (h : scan offset 0 text = .ok tokens) :
    Written text tokens := by
  obtain ⟨tokens', hs⟩ | ⟨before, part, rest, tokens', e, rfl, hs, hf⟩ :=
    spells_or_fault offset text
  · cases ((written_of_spells hs).scan offset).symm.trans h
    exact written_of_spells hs
  · rw [hs.scan_fault hf] at h
    cases h

/-- A token that can be written: no negation, and no number that is NaN or negative. -/
def IsWritten (token : Token) : Prop :=
  token ≠ .operator (.unary .negate) ∧ ∀ v, token = .number v → v.isNaN = false ∧ 0 ≤ v

theorem isWritten_number {v : Float} (h : Binary64.IsUnsigned v) : IsWritten (.number v) := by
  refine ⟨nofun, ?_⟩
  intro v' he
  cases he
  exact h.nonneg

theorem Lexeme.isWritten {lex : List Char} (h : Lexeme lex rest token) : IsWritten token := by
  cases h with
  | number hrun hend hv => exact isWritten_number hv.unsigned
  | pi rest => exact isWritten_number rfl
  | e hname => exact isWritten_number rfl
  | unknown hname => exact ⟨nofun, nofun⟩
  | function hlongest => exact ⟨nofun, nofun⟩
  | operator hop rest => exact ⟨fun h => hop (Token.operator.inj h), nofun⟩

theorem Written.isWritten (h : Written text tokens) : ∀ token ∈ tokens, IsWritten token := by
  induction h with
  | blanks h => exact List.forall_mem_nil _
  | lexeme hb hl hr ih => exact List.forall_mem_cons.mpr ⟨hl.isWritten, ih⟩

/-- Exactly the texts that are written with lexemes are read, as the tokens of these; no token is a
negation, and no number is NaN or negative. -/
theorem ofText_eq_ok_iff (text : String) (tokens : List Token) :
    (ofText text = .ok tokens ↔ Written text.toList tokens) ∧
    (ofText text = .ok tokens → ∀ token ∈ tokens, token ≠ .operator (.unary .negate) ∧
      ∀ v, token = .number v → v.isNaN = false ∧ 0 ≤ v) := by
  have hiff : ofText text = .ok tokens ↔ Written text.toList tokens :=
    ⟨written_of_scan, fun h => h.scan 0⟩
  exact ⟨hiff, fun h => (hiff.mp h).isWritten⟩

/-- The statement above at `cosec( .5e)x`. -/
theorem ofText_eq_ok_iff_cosec :
    let tokens : List Token := [.function .cosec, .operator .openParen, .number 0.5, .number e,
      .operator .closeParen, .unknown]
    ofText "cosec( .5e)x" = .ok tokens ∧ Written "cosec( .5e)x".toList tokens ∧
      ∀ token ∈ tokens, token ≠ .operator (.unary .negate) ∧
        ∀ v, token = .number v → v.isNaN = false ∧ 0 ≤ v := by
  intro tokens
  have h : ofText "cosec( .5e)x" = .ok tokens := by decide +kernel
  obtain ⟨hiff, hsound⟩ := ofText_eq_ok_iff "cosec( .5e)x" tokens
  exact ⟨h, hiff.mp h, hsound h⟩

end Calculator.Token
