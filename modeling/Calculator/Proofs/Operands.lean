import Calculator.Proofs.Accounting
import Calculator.Expression

/-!
# What a converted list is made of

Numbers and the unknown never wait, so they come out in the order in which they were written.
What waits comes out later, but all of it does, and what only groups never does. So a converted
list mentions the unknown exactly if the written one did.
-/

namespace Calculator

/-- Is it a number or the unknown? -/
def Token.isOperand : Token → Bool
  | number _ | unknown => true
  | _ => false

/-- Does it only group, or separate what is grouped? -/
def Token.isPunctuation : Token → Bool
  | operator .openParen | operator .closeParen | operator .comma => true
  | _ => false

namespace Postfix

/-- The operands among the tokens, in their order. -/
def operands (tokens : List Token) : List Token := tokens.filter Token.isOperand

@[simp] theorem operands_nil : operands [] = [] := rfl

@[simp] theorem operands_operator (op : Operator) (tokens : List Token) :
    operands (.operator op :: tokens) = operands tokens := rfl

@[simp] theorem operands_function (f : Builtin) (tokens : List Token) :
    operands (.function f :: tokens) = operands tokens := rfl

@[simp] theorem operands_append (tokens more : List Token) :
    operands (tokens ++ more) = operands tokens ++ operands more := by
  simp [operands]

theorem mem_operands {token : Token} (h : token.isOperand = true) (tokens : List Token) :
    token ∈ operands tokens ↔ token ∈ tokens := by
  simp [operands, h]

/-- No operand waits. -/
@[simp] theorem operands_placedBy (pending : List Pending) : operands (placedBy pending) = [] := by
  induction pending with
  | nil => rfl
  | cons p pending ih => cases p <;> simpa using ih

/-- An operand is placed as soon as it is read, and no other token places one. -/
theorem transition_operands {s u : State} {token : Token} {placed : List Token}
    (h : Transition s token placed u) : operands placed = operands [token] := by
  cases h with
  | number value => rfl
  | unknown => rfl
  | function f => rfl
  | openParen => rfl
  | closeCall ha hs => simp
  | closeParen ha hs hb => simp
  | comma ha hs => simp
  | closeBar hc ha hs => simp
  | openBar hc => rfl
  | plus hc => rfl
  | sign hc hop => rfl
  | operator hop hc => simp

theorem feed_operands {tokens placed : List Token} {s u : State}
    (h : feed s tokens = .ok (placed, u)) : operands placed = operands tokens := by
  induction tokens generalizing s placed with
  | nil =>
    cases h
    rfl
  | cons token tokens ih =>
    obtain ⟨first, v, later, ht, hf, rfl⟩ := feed_cons_eq_ok h
    have hcons : operands (token :: tokens) = operands [token] ++ operands tokens :=
      operands_append [token] tokens
    rw [operands_append, transition_operands ht, ih hf, hcons]

theorem operands_ofInfix {tokens p : List Token} (h : ofInfix tokens = .ok p) :
    operands p = operands tokens := by
  obtain ⟨placed, s, hf, hs, rfl⟩ := feed_of_ofInfix h
  rw [operands_append, operands_placedBy, List.append_nil, feed_operands hf]

/-- Conversion neither loses nor invents the unknown. -/
theorem unknown_mem_ofInfix {tokens p : List Token} (h : ofInfix tokens = .ok p) :
    .unknown ∈ p ↔ .unknown ∈ tokens := by
  rw [← mem_operands rfl p, operands_ofInfix h, mem_operands rfl tokens]

/-- No token becomes punctuation. -/
theorem isPunctuation_contribution {completed : Bool} {token placed : Token}
    (h : placed ∈ contribution completed token) : placed.isPunctuation = false := by
  cases token with
  | number value =>
    cases List.mem_singleton.mp h
    rfl
  | unknown =>
    cases List.mem_singleton.mp h
    rfl
  | function f =>
    cases List.mem_singleton.mp h
    rfl
  | operator op =>
    cases op with
    | unary op => cases op <;> cases completed <;> simp_all [contribution, Token.isPunctuation]
    | binary op => cases op <;> cases completed <;> simp_all [contribution, Token.isPunctuation]
    | openParen => cases h
    | closeParen => cases h
    | comma => cases h

theorem isPunctuation_contributions {completed : Bool} {tokens : List Token} {placed : Token}
    (h : placed ∈ contributions completed tokens) : placed.isPunctuation = false := by
  obtain ⟨token, -, before, hplaced⟩ := mem_contributions h
  exact isPunctuation_contribution hplaced

end Postfix

open Postfix

theorem Expression.ofTokens_eq_ok {tokens p : List Token} (h : ofInfix tokens = .ok p) :
    ofTokens tokens = .ok ⟨p⟩ := by
  rw [ofTokens, h]
  rfl

theorem Expression.hasUnknown_iff (expression : Expression) :
    expression.hasUnknown = true ↔ .unknown ∈ expression.tokens := by
  rw [hasUnknown, List.any_eq_true]
  constructor
  · rintro ⟨token, hm, ht⟩
    cases token with
    | unknown => exact hm
    | number value => cases ht
    | function f => cases ht
    | operator op => cases ht
  · intro hm
    exact ⟨.unknown, hm, rfl⟩

/-- A converted list is a rearrangement of what its tokens become: it has the operands in the
order written and no punctuation, and the expression made of it mentions the unknown exactly if
the tokens do. -/
theorem ofInfix_rearranges {tokens p : List Token} (h : ofInfix tokens = .ok p) :
    p.Perm (contributions false tokens) ∧
    operands p = operands tokens ∧
    (∀ token ∈ p, token.isPunctuation = false) ∧
    ∃ expression, Expression.ofTokens tokens = .ok expression ∧ expression.tokens = p ∧
      (expression.hasUnknown = true ↔ .unknown ∈ tokens) := by
  have hperm := perm_ofInfix h
  refine ⟨hperm, operands_ofInfix h, ?_, ⟨p⟩, Expression.ofTokens_eq_ok h, rfl, ?_⟩
  · intro token hm
    exact isPunctuation_contributions (hperm.mem_iff.mp hm)
  · rw [Expression.hasUnknown_iff, unknown_mem_ofInfix h]

/-- The statement above at `|-x| = nPr(+3, 2)!`. -/
theorem ofInfix_rearranges_equation :
    let bar : Token := .operator (.unary .bar)
    let tokens : List Token := [bar, .operator (.binary .minus), .unknown, bar,
      .operator (.binary .equals), .function .nPr, .operator .openParen,
      .operator (.binary .plus), .number 3, .operator .comma, .number 2, .operator .closeParen,
      .operator (.unary .factorial)]
    let p : List Token := [.unknown, .operator (.unary .negate), bar, .number 3, .number 2,
      .function .nPr, .operator (.unary .factorial), .operator (.binary .equals)]
    ofInfix tokens = .ok p ∧
    p.Perm [.operator (.unary .negate), .unknown, bar, .operator (.binary .equals),
      .function .nPr, .number 3, .number 2, .operator (.unary .factorial)] ∧
    operands p = [.unknown, .number 3, .number 2] ∧
    ∃ expression, Expression.ofTokens tokens = .ok expression ∧
      expression.hasUnknown = true := by
  intro bar tokens p
  have h : ofInfix tokens = .ok p := rfl
  obtain ⟨hperm, hoperands, -, expression, hx, -, hiff⟩ := ofInfix_rearranges h
  refine ⟨h, hperm, hoperands, expression, hx, hiff.mpr ?_⟩
  simp [tokens]

end Calculator
