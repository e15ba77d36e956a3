import Calculator.Expression
import Calculator.Proofs.ReadBack

/-!
# The text of a postfix expression

The text of each token tells which token it is, and has no space in it. So the text of a whole
expression, with its spaces, tells the expression. It is the text that is logged when the expression
is made.
-/

namespace Calculator

open Binary64 (ofPlainText? ofPlainText?_plainText notMem_plainText)

namespace Token

/-- The token that has the given text. -/
def ofPostfixText? (text : String) : Option Token :=
  match ofPlainText? text with
  | some value => some (.number value)
  | none =>
    if text = unknownName then some .unknown
    else (Builtin.ofName? text).map .function <|> (Operator.ofSymbol? text).map .operator

/-! ## One token -/

/-- No name and no symbol is the text of a number, and none is that of another token. -/
theorem ofPostfixText?_text (token : Token) : ofPostfixText? token.text = some token := by
  cases token with
  | number v => rw [ofPostfixText?, text, ofPlainText?_plainText]
  | unknown => decide +kernel
  | function f => cases f <;> decide +kernel
  | operator op =>
    rcases op with u | b | _ | _ | _
    · cases u <;> decide +kernel
    · cases b <;> decide +kernel
    all_goals decide +kernel

theorem text_injective : Function.Injective text := by
  intro a b h
  have ha := ofPostfixText?_text a
  rw [h, ofPostfixText?_text] at ha
  exact (Option.some.inj ha).symm

theorem text_ne_empty (token : Token) : token.text ≠ "" := by
  intro h
  have htoken := ofPostfixText?_text token
  have hempty : ofPostfixText? "" = none := by decide +kernel
  rw [h, hempty] at htoken
  cases htoken

theorem space_notMem_text (token : Token) : ' ' ∉ token.text.toList := by
  cases token with
  | number v => exact notMem_plainText (by decide) (by decide) v
  | unknown => decide
  | function f => cases f <;> decide
  | operator op =>
    rcases op with u | b | _ | _ | _
    · cases u <;> decide
    · cases b <;> decide
    all_goals decide

/-! ## Rows of tokens -/

/-- The texts between the spaces are those of the tokens. -/
theorem split_listText (tokens : List Token) :
    ((listText tokens).split ' ').toList.map (·.copy) =
      if tokens = [] then [""] else tokens.map text := by
  have hspace : ∀ s ∈ tokens.map text, ' ' ∉ s.toList :=
    List.forall_mem_map.mpr fun token _ => space_notMem_text token
  have hsplit := String.toList_split_intercalate hspace
  simp only [List.map_eq_nil_iff] at hsplit
  exact hsplit

/-- A row of tokens is told from its text. -/
theorem listText_injective : Function.Injective listText := by
  intro a b h
  have hsplit := split_listText a
  rw [h, split_listText b] at hsplit
  have hempty : ∀ (token : Token) (tokens : List Token),
      [""] ≠ (token :: tokens).map text := by
    intro token tokens heq
    rw [List.map_cons, List.cons.injEq] at heq
    exact token.text_ne_empty heq.1.symm
  cases a with
  | nil =>
    cases b with
    | nil => rfl
    | cons token tokens => exact absurd hsplit.symm (hempty token tokens)
  | cons first others =>
    cases b with
    | nil => exact absurd hsplit (hempty first others)
    | cons token tokens => exact text_injective.list_map hsplit.symm

end Token

namespace Expression

/-- From the second token on, there is a space before each. -/
theorem foldl_writeToken (tokens : List Token) (k : Nat) (written : String) :
    (tokens.zipIdx (k + 1)).foldl writeToken written =
      " ".intercalate (written :: tokens.map Token.text) := by
  induction tokens generalizing k written with
  | nil => rfl
  | cons token tokens ih =>
    rw [List.zipIdx_cons, List.foldl_cons, ih, writeToken, if_pos k.succ_pos]
    rfl

/-- Written token by token, an expression is the row of its tokens. -/
theorem text_eq_listText (expression : Expression) :
    expression.text = Token.listText expression.tokens := by
  unfold text Token.listText
  cases expression.tokens with
  | nil => rfl
  | cons token tokens =>
    rw [List.zipIdx_cons, List.foldl_cons, foldl_writeToken, writeToken, if_neg (lt_irrefl 0),
      String.empty_append]
    rfl

theorem log_arranged (expression : Expression) :
    Event.log .trace [.arranged expression.tokens] = ["TRACE Postfix: " ++ expression.text] := by
  have hlog : Event.log .trace [.arranged expression.tokens] =
      ["TRACE" ++ " " ++ ("Postfix: " ++ Token.listText expression.tokens)] := rfl
  have hhead : "TRACE" ++ " " ++ "Postfix: " = "TRACE Postfix: " := by decide
  rw [hlog, text_eq_listText, ← String.append_assoc, hhead]

/-- The text of an expression tells its tokens. When an expression is made, the one line that is
logged is this text, and when none is made there is no line. -/
theorem text_unambiguous :
    Function.Injective text ∧
      ∀ tokens, Event.log .trace (events (ofTokens tokens)) =
        match ofTokens tokens with
        | .ok expression => ["TRACE Postfix: " ++ expression.text]
        | .error _ => [] := by
  refine ⟨fun a b h => ?_, fun tokens => ?_⟩
  · rw [text_eq_listText, text_eq_listText] at h
    cases a
    cases b
    exact congrArg mk (Token.listText_injective h)
  · cases ofTokens tokens with
    | error e => rfl
    | ok expression => exact log_arranged expression

end Expression

end Calculator
