import Calculator.Proofs.Accounting
import Calculator.Proofs.Grammar

/-!
# Orderly lists of tokens

A list is orderly if nothing that begins an operand follows a complete one, and if the commas
of every group are those of the call that the group belongs to. It need not be an expression:
operands may still be missing.

What has been read of an orderly list has a score, the values that are complete less those that
the commas to come will add. Every token raises it by its own weight at least.
-/

namespace Calculator.Infix

open Postfix

/-- What has been read: the open groups with the commas that each is still to hold, the commas
that a parenthesis would have to hold if it came next, and whether an operand is complete. -/
structure Outline where
  groups : List (Delimiter × Nat)
  commas : Nat
  completed : Bool

namespace Outline

/-- Reads a token, unless it begins an operand behind a complete one or finds too few or too
many commas in its group. -/
def next (o : Outline) : Token → Option Outline
  | .number _ | .unknown => if o.completed then none else some ⟨o.groups, 0, true⟩
  | .function f => if o.completed then none else some ⟨o.groups, f.arity - 1, false⟩
  | .operator .openParen =>
    if o.completed then none else some ⟨(.paren, o.commas) :: o.groups, 0, false⟩
  | .operator .closeParen =>
    match o.groups with
    | (.paren, 0) :: outer => some ⟨outer, 0, true⟩
    | _ => none
  | .operator .comma =>
    match o.groups with
    | (.paren, n + 1) :: outer => some ⟨(.paren, n) :: outer, 0, false⟩
    | _ => none
  | .operator (.unary .bar) =>
    if o.completed then
      match o.groups with
      | (.bar, 0) :: outer => some ⟨outer, 0, true⟩
      | _ => none
    else some ⟨(.bar, 0) :: o.groups, 0, false⟩
  | .operator (.unary .factorial) => some ⟨o.groups, 0, true⟩
  | .operator _ => some ⟨o.groups, 0, false⟩

/-- Reads tokens one after the other. -/
def after (o : Outline) : List Token → Option Outline
  | [] => some o
  | token :: tokens => (o.next token).bind fun later => later.after tokens

/-- The commas that open groups are still to hold. -/
def due : List (Delimiter × Nat) → Int
  | [] => 0
  | (_, n) :: groups => n + due groups

/-- The number of values that are complete, less those that the commas to come will add. -/
def score (o : Outline) : Int := (if o.completed then 1 else 0) - o.commas - due o.groups

@[simp] theorem due_nil : due [] = 0 := rfl

@[simp] theorem due_cons (d : Delimiter) (n : Nat) (groups : List (Delimiter × Nat)) :
    due ((d, n) :: groups) = n + due groups := rfl

@[simp] theorem score_completed (groups : List (Delimiter × Nat)) (commas : Nat) :
    score ⟨groups, commas, true⟩ = 1 - commas - due groups := rfl

@[simp] theorem score_awaiting (groups : List (Delimiter × Nat)) (commas : Nat) :
    score ⟨groups, commas, false⟩ = 0 - commas - due groups := rfl

theorem score_le (o : Outline) : o.score ≤ 1 - o.commas - due o.groups := by
  unfold score
  split <;> omega

@[simp] theorem after_nil (o : Outline) : o.after [] = some o := rfl

@[simp] theorem after_cons (o : Outline) (token : Token) (tokens : List Token) :
    o.after (token :: tokens) = (o.next token).bind fun later => later.after tokens := rfl

@[simp] theorem after_append (o : Outline) (tokens more : List Token) :
    o.after (tokens ++ more) = (o.after tokens).bind fun later => later.after more := by
  induction tokens generalizing o with
  | nil => rfl
  | cons token tokens ih =>
    rw [List.cons_append, after_cons, after_cons, Option.bind_assoc]
    congr 1
    funext later
    exact ih later

/-- What a token that no text writes as a negation can do to an outline. -/
inductive Reading (o : Outline) : Token → Outline → Prop where
  | number (hc : o.completed = false) (value : Float) :
    Reading o (.number value) ⟨o.groups, 0, true⟩
  | unknown (hc : o.completed = false) : Reading o .unknown ⟨o.groups, 0, true⟩
  | function (hc : o.completed = false) (f : Builtin) :
    Reading o (.function f) ⟨o.groups, f.arity - 1, false⟩
  | openParen (hc : o.completed = false) :
    Reading o (.operator .openParen) ⟨(.paren, o.commas) :: o.groups, 0, false⟩
  | closeParen {outer : List (Delimiter × Nat)} (hg : o.groups = (.paren, 0) :: outer) :
    Reading o (.operator .closeParen) ⟨outer, 0, true⟩
  | comma {n : Nat} {outer : List (Delimiter × Nat)} (hg : o.groups = (.paren, n + 1) :: outer) :
    Reading o (.operator .comma) ⟨(.paren, n) :: outer, 0, false⟩
  | closeBar {outer : List (Delimiter × Nat)} (hc : o.completed = true)
      (hg : o.groups = (.bar, 0) :: outer) :
    Reading o (.operator (.unary .bar)) ⟨outer, 0, true⟩
  | openBar (hc : o.completed = false) :
    Reading o (.operator (.unary .bar)) ⟨(.bar, 0) :: o.groups, 0, false⟩
  | factorial : Reading o (.operator (.unary .factorial)) ⟨o.groups, 0, true⟩
  | binary (op : BinaryOperator) : Reading o (.operator (.binary op)) ⟨o.groups, 0, false⟩

variable {o o' : Outline} {token : Token}

theorem reading_of_next (h : o.next token = some o')
    (hn : token ≠ .operator (.unary .negate)) : Reading o token o' := by
  cases token with
  | number value =>
    simp only [next, Option.ite_none_left_eq_some, Bool.not_eq_true] at h
    obtain ⟨hc, ⟨⟩⟩ := h
    exact .number hc value
  | unknown =>
    simp only [next, Option.ite_none_left_eq_some, Bool.not_eq_true] at h
    obtain ⟨hc, ⟨⟩⟩ := h
    exact .unknown hc
  | function f =>
    simp only [next, Option.ite_none_left_eq_some, Bool.not_eq_true] at h
    obtain ⟨hc, ⟨⟩⟩ := h
    exact .function hc f
  | operator op =>
    cases op with
    | unary op =>
      cases op with
      | factorial =>
        cases h
        exact .factorial
      | bar =>
        cases hc : o.completed with
        | true =>
          simp only [next, hc, if_true] at h
          split at h
          · next outer hg =>
            cases h
            exact .closeBar hc hg
          · cases h
        | false =>
          simp only [next, hc, Bool.false_eq_true, if_false] at h
          cases h
          exact .openBar hc
      | negate => exact (hn rfl).elim
    | binary op =>
      cases h
      exact .binary op
    | openParen =>
      simp only [next, Option.ite_none_left_eq_some, Bool.not_eq_true] at h
      obtain ⟨hc, ⟨⟩⟩ := h
      exact .openParen hc
    | closeParen =>
      simp only [next] at h
      split at h
      · next outer hg =>
        cases h
        exact .closeParen hg
      · cases h
    | comma =>
      simp only [next] at h
      split at h
      · next n outer hg =>
        cases h
        exact .comma hg
      · cases h

/-- The outline and the conversion agree on where an operand is complete. -/
theorem Reading.completed_eq (h : Reading o token o') :
    o'.completed = completes o.completed token := by
  cases h with
  | closeBar hc hg => simp [completes, hc]
  | openBar hc => simp [completes, hc]
  | _ => rfl

/-- No token weighs more than it raises the score. -/
theorem Reading.total_le (h : Reading o token o') :
    total (contribution o.completed token) ≤ o'.score - o.score := by
  obtain ⟨groups, commas, completed⟩ := o
  have hle : score ⟨groups, commas, completed⟩ ≤ 1 - commas - due groups := score_le _
  cases h with
  | number hc value =>
    cases hc
    simp only [contribution, total_cons, total_nil, Token.weight_number, score_completed,
      score_awaiting]
    omega
  | unknown hc =>
    cases hc
    simp only [contribution, total_cons, total_nil, Token.weight_unknown, score_completed,
      score_awaiting]
    omega
  | function hc f =>
    have hpos := f.arity_pos
    cases hc
    simp only [contribution, total_cons, total_nil, Token.weight_function, score_awaiting]
    omega
  | openParen hc =>
    cases hc
    simp only [contribution, total_nil, score_awaiting, due_cons]
    omega
  | closeParen hg =>
    cases hg
    rw [due_cons] at hle
    simp only [contribution, total_nil, score_completed]
    omega
  | comma hg =>
    cases hg
    rw [due_cons] at hle
    simp only [contribution, total_nil, score_awaiting, due_cons]
    omega
  | closeBar hc hg =>
    cases hc
    cases hg
    simp only [contribution, if_true, total_cons, total_nil, Token.weight_unary, score_completed,
      due_cons]
    omega
  | openBar hc =>
    cases hc
    simp only [contribution, Bool.false_eq_true, if_false, total_nil, score_awaiting, due_cons]
    omega
  | factorial =>
    simp only [contribution, total_cons, total_nil, Token.weight_unary, score_completed]
    omega
  | binary op =>
    cases completed with
    | true =>
      have hop : total (contribution true (.operator (.binary op))) = -1 := by
        cases op <;> rfl
      simp only [hop, score_awaiting, score_completed]
      omega
    | false =>
      have hop := total_contribution_binary_le op
      simp only [score_awaiting]
      omega

/-- Nor do tokens, along any list that can be read. -/
theorem total_contributions_le {tokens : List Token} (h : o.after tokens = some o')
    (hn : Token.operator (.unary .negate) ∉ tokens) :
    total (contributions o.completed tokens) ≤ o'.score - o.score := by
  induction tokens generalizing o with
  | nil =>
    cases h
    simp
  | cons token tokens ih =>
    obtain ⟨hne, hn⟩ := not_or.mp (mt List.mem_cons.mpr hn)
    obtain ⟨middle, hm, hrest⟩ := Option.bind_eq_some_iff.mp h
    have hr := reading_of_next hm (Ne.symm hne)
    have hfirst := hr.total_le
    have hlater := ih hrest hn
    rw [contributions_cons, ← hr.completed_eq, total_append]
    omega

end Outline

/-- Read as a whole, with every group closed. -/
def Orderly (tokens : List Token) : Prop :=
  ((Outline.mk [] 0 false).after tokens).map Outline.groups = some []

instance (tokens : List Token) : Decidable (Orderly tokens) :=
  inferInstanceAs (Decidable (_ = _))

end Calculator.Infix
