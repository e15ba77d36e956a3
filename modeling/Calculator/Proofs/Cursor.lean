import Calculator.Proofs.Lexemes

/-!
# Reading with a cursor

The tokens of a text, read with a cursor that counts bytes. A part of a text can be taken only from
the start of a character to the start of a character, and a loop has no more rounds than the text
has characters, and one for the end: else there is no result. The cursor always stands where a
character starts, or at the end of the text, and every round takes it on.
-/

namespace Calculator.Guarded

open String (utf8Len)

/-- Cuts a text so many bytes in. There is no result if no character starts there, unless the text
ends there. -/
def cut : (text : List Char) → (bytes : Nat) → Option (List Char × List Char)
  | text, 0 => some ([], text)
  | [], _ + 1 => none
  | c :: text, i + 1 =>
    if c.utf8Size ≤ i + 1 then
      (cut text (i + 1 - c.utf8Size)).map fun (before, after) => (c :: before, after)
    else none

/-- The text from the cursor on. -/
def rest (text : List Char) (cursor : Nat) : Option (List Char) := (cut text cursor).map Prod.snd

/-- The text from one place to another one. -/
def slice (text : List Char) (start stop : Nat) : Option (List Char) := do
  let later ← rest text start
  if start ≤ stop then (cut later (stop - start)).map Prod.fst else none

/-- The place after all characters of a kind. No result if so many rounds are not enough. -/
def skipWhile (kind : Char → Bool) (text : List Char) : (rounds cursor : Nat) → Option Nat
  | 0, _ => none
  | rounds + 1, cursor => do
    match (← rest text cursor).head? with
    | some c => if kind c then skipWhile kind text rounds (cursor + c.utf8Size) else return cursor
    | none => return cursor

/-- The number at the cursor, and the place after it. -/
def number (text : List Char) (cursor : Nat) : Option (Except ParseError Token × Nat) := do
  let stop ← skipWhile Decimal.isNumeralChar text (text.length + 1) cursor
  let run ← slice text cursor stop
  match Decimal.ofNumeral? run with
  | some d => return (.ok (.number d.toFloat), stop)
  | none => return (.error (.invalidNumber (String.ofList run) cursor stop), stop)

/-- What the character at the cursor stands for on its own. -/
def single (cursor : Nat) (c : Char) : Except ParseError Token :=
  if c = 'x' then .ok .unknown
  else if c = 'e' then .ok (.number Token.e)
  else
    match Operator.ofChar? c with
    | some op => .ok (.operator op)
    | none => .error (.invalidCharacter c cursor)

/-- The function that the text at the cursor names, or what its first character stands for; and the
place after that. -/
def word (text : List Char) (cursor : Nat) (c : Char) : Option (Except ParseError Token × Nat) := do
  match Builtin.longestAt (← rest text cursor) with
  | some f => return (.ok (.function f), cursor + f.name.utf8ByteSize)
  | none => return (single cursor c, cursor + c.utf8Size)

/-- The lexeme at the cursor, which starts with `c`, and the place after it. -/
def lexeme (text : List Char) (cursor : Nat) (c : Char) : Option (Except ParseError Token × Nat) :=
  if Decimal.isNumeralChar c then number text cursor
  else if c = 'π' then return (.ok (.number Token.pi), cursor + c.utf8Size)
  else word text cursor c

/-- The tokens from the cursor on. No result if so many rounds are not enough. -/
def scan (text : List Char) :
    (rounds cursor : Nat) → Option (Except ParseError (List Token))
  | 0, _ => none
  | rounds + 1, cursor => do
    match (← rest text cursor).head? with
    | none => return .ok []
    | some c =>
      if Text.isBlank c then scan text rounds (cursor + c.utf8Size)
      else
        match ← lexeme text cursor c with
        | (.error e, _) => return .error e
        | (.ok token, stop) => return (← scan text rounds stop).map (token :: ·)

/-- The tokens of a text. -/
def tokens (text : String) : Option (Except ParseError (List Token)) :=
  scan text.toList (text.toList.length + 1) 0

variable {text before after : List Char} {i rounds : Nat} {c : Char}

/-! ## Cuts -/

@[simp] theorem cut_zero (text : List Char) : cut text 0 = some ([], text) := by
  cases text <;> rfl

theorem cut_append (before after : List Char) :
    cut (before ++ after) (utf8Len before) = some (before, after) := by
  induction before with
  | nil => exact cut_zero after
  | cons c before ih =>
    obtain ⟨k, hk⟩ : ∃ k, utf8Len before + c.utf8Size = k + 1 :=
      ⟨utf8Len before + c.utf8Size - 1, by have := c.utf8Size_pos; omega⟩
    have hrest : k + 1 - c.utf8Size = utf8Len before := by omega
    rw [List.cons_append, String.utf8Len_cons, hk, cut, if_pos (by omega), hrest, ih]
    rfl

theorem of_cut (h : cut text i = some (before, after)) :
    text = before ++ after ∧ utf8Len before = i := by
  induction text generalizing before i with
  | nil =>
    cases i with
    | zero =>
      cases h
      exact ⟨rfl, rfl⟩
    | succ i => cases h
  | cons c text ih =>
    cases i with
    | zero =>
      cases h
      exact ⟨rfl, rfl⟩
    | succ i =>
      rw [cut] at h
      split at h
      · obtain ⟨⟨first, second⟩, hcut, hpair⟩ := Option.map_eq_some_iff.mp h
        cases hpair
        obtain ⟨rfl, hlen⟩ := ih hcut
        refine ⟨rfl, ?_⟩
        rw [String.utf8Len_cons]
        omega
      · cases h

/-- A text can be cut exactly between two characters, and at its ends. -/
theorem cut_eq_some_iff :
    cut text i = some (before, after) ↔ text = before ++ after ∧ utf8Len before = i := by
  refine ⟨of_cut, ?_⟩
  rintro ⟨rfl, rfl⟩
  exact cut_append before after

example : cut ['π', 'x'] 1 = none := by decide

theorem rest_append (before after : List Char) :
    rest (before ++ after) (utf8Len before) = some after := by
  rw [rest, cut_append]
  rfl

theorem slice_append (before part after : List Char) :
    slice (before ++ (part ++ after)) (utf8Len before) (utf8Len before + utf8Len part) =
      some part := by
  rw [slice, rest_append, Option.bind_eq_bind, Option.bind_some, if_pos (Nat.le_add_right _ _),
    Nat.add_sub_cancel_left, cut_append]
  rfl

/-! ## Lexemes -/

theorem utf8Len_concat (before : List Char) (c : Char) :
    utf8Len (before ++ [c]) = utf8Len before + c.utf8Size := by
  rw [String.utf8Len_append, String.utf8Len_cons, String.utf8Len_nil, Nat.zero_add]

theorem skipWhile_append (kind : Char → Bool) (before : List Char)
    (h : after.length < rounds) :
    skipWhile kind (before ++ after) rounds (utf8Len before) =
      some (utf8Len before + utf8Len (after.takeWhile kind)) := by
  obtain ⟨r, rfl⟩ : ∃ r, rounds = r + 1 := ⟨rounds - 1, by omega⟩
  induction after generalizing before r with
  | nil =>
    rw [skipWhile, rest_append]
    rfl
  | cons c after ih =>
    rw [List.length_cons] at h
    obtain ⟨r, rfl⟩ : ∃ r', r = r' + 1 := ⟨r - 1, by omega⟩
    rw [skipWhile, rest_append]
    simp only [Option.bind_eq_bind, Option.bind_some, List.head?_cons]
    by_cases hc : kind c = true
    · have hnext := ih (before ++ [c]) r (Nat.lt_of_succ_lt_succ h)
      rw [List.append_assoc, List.singleton_append, utf8Len_concat] at hnext
      rw [if_pos hc, hnext, List.takeWhile_cons_of_pos hc, String.utf8Len_cons, Nat.add_assoc,
        Nat.add_comm c.utf8Size]
    · rw [if_neg hc, List.takeWhile_cons_of_neg hc]
      rfl

/-- A lexeme is read as it is read by the length: the same token, with the cursor after its
characters, or the same error. -/
def ReadsAs (before : List Char) (c : Char) (after : List Char)
    (reading : Option (Except ParseError Token × Nat)) : Prop :=
  ∃ stop, reading = some ((Token.lexeme (utf8Len before) c after).map Prod.fst, stop) ∧
    ∀ token length, Token.lexeme (utf8Len before) c after = .ok (token, length) →
      0 < length ∧ stop = utf8Len before + utf8Len ((c :: after).take length)

theorem number_append (hc : Decimal.isNumeralChar c = true) (before after : List Char) :
    ReadsAs before c after (number (before ++ c :: after) (utf8Len before)) := by
  obtain ⟨run, hrun⟩ : ∃ run, (c :: after).takeWhile Decimal.isNumeralChar = run := ⟨_, rfl⟩
  have hsplit : run ++ (c :: after).dropWhile Decimal.isNumeralChar = c :: after := by
    rw [← hrun, List.takeWhile_append_dropWhile]
  have hrounds : (c :: after).length < (before ++ c :: after).length + 1 := by
    rw [List.length_append]
    omega
  have hskip := skipWhile_append Decimal.isNumeralChar before hrounds
  have hslice := slice_append before run ((c :: after).dropWhile Decimal.isNumeralChar)
  rw [hsplit] at hslice
  rw [hrun] at hskip
  refine ⟨utf8Len before + utf8Len run, ?_, ?_⟩
  · rw [number, hskip, Option.bind_eq_bind, Option.bind_some, hslice, Option.bind_eq_bind,
      Option.bind_some]
    cases hd : Decimal.ofNumeral? run with
    | some d =>
      rw [Token.lexeme_of_numeral _ hc hrun hd]
      rfl
    | none =>
      have hlen : utf8Len run = run.length := by
        rw [← String.utf8ByteSize_ofList]
        exact Token.utf8ByteSize_run fun d hd => List.mem_takeWhile_imp (hrun ▸ hd)
      rw [Token.lexeme_of_invalidNumber _ hc hrun hd, hlen]
      rfl
  · intro token length h
    cases hd : Decimal.ofNumeral? run with
    | some d =>
      rw [Token.lexeme_of_numeral _ hc hrun hd] at h
      cases h
      rw [← hsplit, List.take_left]
      refine ⟨?_, rfl⟩
      rw [← hrun, List.takeWhile_cons_of_pos hc, List.length_cons]
      exact Nat.succ_pos _
    | none =>
      rw [Token.lexeme_of_invalidNumber _ hc hrun hd] at h
      cases h

/-- Where no number, no circle number and no name starts, the character stands for itself. -/
theorem lexeme_of_single (offset : Nat) (hc : Decimal.isNumeralChar c = false) (hp : c ≠ 'π')
    (hf : Builtin.longestAt (c :: after) = none) :
    Token.lexeme offset c after = (single offset c).map fun token => (token, 1) := by
  rw [Token.lexeme, single, if_neg (by simp [hc]), if_neg hp, hf]
  dsimp only
  split
  · rfl
  · split
    · rfl
    · cases Operator.ofChar? c <;> rfl

theorem word_append (hc : Decimal.isNumeralChar c = false) (hp : c ≠ 'π')
    (before after : List Char) :
    ReadsAs before c after (word (before ++ c :: after) (utf8Len before) c) := by
  rw [word, rest_append, Option.bind_eq_bind, Option.bind_some]
  cases hf : Builtin.longestAt (c :: after) with
  | some f =>
    refine ⟨_, by rw [Token.lexeme_of_name _ hc hp hf]; rfl, ?_⟩
    intro token length h
    rw [Token.lexeme_of_name _ hc hp hf] at h
    cases h
    obtain ⟨more, hmore⟩ := List.isPrefixOf_iff_prefix.mp (Builtin.longestAt_eq_some.mp hf).1
    obtain ⟨d, name, hname, -⟩ := Token.exists_name_eq_cons f
    refine ⟨by rw [Builtin.nameLength, hname]; exact Nat.succ_pos _, ?_⟩
    have hbytes : f.name.utf8ByteSize = utf8Len f.name.toList := by
      rw [← String.utf8ByteSize_ofList, String.ofList_toList]
    rw [Builtin.nameLength, ← hmore, List.take_left, hbytes]
  | none =>
    have hlex := lexeme_of_single (utf8Len before) hc hp hf
    refine ⟨utf8Len before + c.utf8Size, ?_, ?_⟩
    · rw [hlex]
      cases single (utf8Len before) c <;> rfl
    · intro token length h
      rw [hlex] at h
      cases hs : single (utf8Len before) c with
      | error e =>
        rw [hs] at h
        cases h
      | ok token' =>
        rw [hs] at h
        cases h
        simp

/-- Each of the three ways on takes the cursor from one lexeme to just after it. -/
theorem lexeme_append (before : List Char) (c : Char) (after : List Char) :
    ReadsAs before c after (lexeme (before ++ c :: after) (utf8Len before) c) := by
  rw [lexeme]
  split
  · rename_i hc
    exact number_append hc before after
  · rename_i hc
    rw [Bool.not_eq_true] at hc
    split
    · rename_i hp
      subst hp
      refine ⟨_, rfl, ?_⟩
      intro token length h
      cases h
      simp
    · rename_i hp
      exact word_append hc hp before after

/-! ## Whole texts -/

theorem scan_append (before : List Char) (h : after.length < rounds) :
    scan (before ++ after) rounds (utf8Len before) =
      some (Token.scan (utf8Len before) 0 after) := by
  induction rounds generalizing before after with
  | zero => cases h
  | succ rounds ih =>
    rw [scan, rest_append, Option.bind_eq_bind, Option.bind_some]
    cases after with
    | nil => rfl
    | cons c after =>
      rw [List.length_cons] at h
      simp only [List.head?_cons]
      by_cases hb : Text.isBlank c = true
      · have hnext := ih (before ++ [c]) (Nat.lt_of_succ_lt_succ h)
        rw [List.append_assoc, List.singleton_append, utf8Len_concat] at hnext
        rw [if_pos hb, hnext, Token.scan_blank _ hb]
      · rw [if_neg hb, Token.scan, if_neg hb]
        obtain ⟨stop, hread, hstop⟩ := lexeme_append before c after
        rw [hread, Option.bind_eq_bind, Option.bind_some]
        cases hlex : Token.lexeme (utf8Len before) c after with
        | error e => rfl
        | ok read =>
          obtain ⟨token, length⟩ := read
          obtain ⟨hpos, rfl⟩ := hstop token length hlex
          obtain ⟨n, rfl⟩ : ∃ n, length = n + 1 := ⟨length - 1, by omega⟩
          have hlater : (after.drop n).length < rounds := by
            rw [List.length_drop]
            omega
          have hnext := ih (before ++ c :: after.take n) hlater
          rw [List.append_assoc, List.cons_append, List.take_append_drop, String.utf8Len_append,
            String.utf8Len_cons] at hnext
          have hskip := Token.scan_skip (utf8Len before + c.utf8Size) n after
          rw [Nat.add_assoc, Nat.add_comm c.utf8Size] at hskip
          change (scan (before ++ c :: after) rounds
            (utf8Len before + utf8Len ((c :: after).take (n + 1)))).bind _ = _
          rw [List.take_succ_cons, String.utf8Len_cons, hnext, ← hskip]
          rfl

/-- Reading with a cursor never takes a part of the text that it cannot take, and never runs out of
rounds: it finds the tokens of the text. -/
theorem tokens_eq (text : String) : tokens text = some (Token.ofText text) :=
  scan_append [] (Nat.lt_succ_self _)

end Calculator.Guarded
