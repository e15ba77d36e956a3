import Calculator.Proofs.Agreement

/-!
# Replacing operands

Numbers and the unknown are placed as they are read, and are alike to all that is read after them.
So an operand can be replaced before the conversion or after it. A number in the place of the
unknown then has the value that the unknown has when it is bound to this number.
-/

namespace Calculator

/-- The token with the number `v` in the place of the unknown. -/
def Token.bind (v : Float) : Token → Token
  | unknown => number v
  | token => token

/-- The expression with the number `v` in the place of the unknown. -/
def Expression.bind (v : Float) (expression : Expression) : Expression :=
  ⟨expression.tokens.map (Token.bind v)⟩

/-! ## Before the conversion and after it -/

namespace Postfix

/-- The tokens with their operands replaced by the given ones, in order, as far as these go. -/
def refill : List Token → List Token → List Token
  | _, [] => []
  | fillings, token :: tokens =>
    if token.isOperand then fillings.headD token :: refill fillings.tail tokens
    else token :: refill fillings tokens

/-- Replaces operands by operands, and nothing else. -/
structure KeepsKinds (g : Token → Token) : Prop where
  operand : ∀ token, token.isOperand = true → (g token).isOperand = true
  other : ∀ token, token.isOperand = false → g token = token

variable {token : Token} {tokens placed fillings : List Token} {g : Token → Token}

theorem refill_operand (h : token.isOperand = true) (fillings tokens : List Token) :
    refill fillings (token :: tokens) = fillings.headD token :: refill fillings.tail tokens :=
  if_pos h

theorem refill_other (h : token.isOperand = false) (fillings tokens : List Token) :
    refill fillings (token :: tokens) = token :: refill fillings tokens :=
  if_neg (Bool.eq_false_iff.mp h)

theorem operands_cons_eq_nil (h : operands (token :: tokens) = []) :
    token.isOperand = false ∧ operands tokens = [] := by
  simpa [operands] using h

theorem isEmpty_refill (fillings tokens : List Token) :
    (refill fillings tokens).isEmpty = tokens.isEmpty := by
  cases tokens with
  | nil => rfl
  | cons token tokens => cases h : token.isOperand <;> simp [refill, h]

/-- Without operands there is nothing to replace. -/
theorem refill_append_left (h : operands placed = []) (fillings tokens : List Token) :
    refill fillings (placed ++ tokens) = placed ++ refill fillings tokens := by
  induction placed with
  | nil => rfl
  | cons token placed ih =>
    obtain ⟨ht, hp⟩ := operands_cons_eq_nil h
    rw [List.cons_append, refill_other ht, ih hp, List.cons_append]

theorem refill_append_right (h : operands placed = []) (fillings tokens : List Token) :
    refill fillings (tokens ++ placed) = refill fillings tokens ++ placed := by
  induction tokens generalizing fillings with
  | nil => simpa [refill] using refill_append_left h fillings []
  | cons token tokens ih =>
    rw [List.cons_append]
    cases ht : token.isOperand with
    | true => rw [refill_operand ht, refill_operand ht, ih, List.cons_append]
    | false => rw [refill_other ht, refill_other ht, ih, List.cons_append]

/-- In every state an operand is placed, and an operand has then been completed. -/
theorem step_operand (h : token.isOperand = true) (s : State) :
    step s token = .ok ([token], { s with afterOperand := true }) := by
  cases token with
  | number value => rfl
  | unknown => rfl
  | function f => cases h
  | operator op => cases h

theorem isOperand_headD (hf : ∀ filling ∈ fillings, filling.isOperand = true)
    (h : token.isOperand = true) : (fillings.headD token).isOperand = true := by
  cases fillings with
  | nil => exact h
  | cons filling fillings => exact hf filling List.mem_cons_self

/-- Replaced operands are placed where the others were, and no state tells them apart. -/
theorem feed_refill (hf : ∀ filling ∈ fillings, filling.isOperand = true) (s : State)
    (tokens : List Token) :
    feed s (refill fillings tokens) =
      (feed s tokens).map fun (placed, u) => (refill fillings placed, u) := by
  induction tokens generalizing s fillings with
  | nil => rfl
  | cons token tokens ih =>
    cases ht : token.isOperand with
    | true =>
      have htail : ∀ filling ∈ fillings.tail, filling.isOperand = true :=
        fun filling hm => hf filling (List.mem_of_mem_tail hm)
      rw [refill_operand ht, feed_cons, feed_cons, step_operand (isOperand_headD hf ht),
        step_operand ht]
      simp only [bind, Except.bind, ih htail]
      cases feed { s with afterOperand := true } tokens with
      | error e => rfl
      | ok r => exact congrArg Except.ok (Prod.ext (refill_operand ht fillings r.1).symm rfl)
    | false =>
      rw [refill_other ht, feed_cons, feed_cons]
      cases hs : step s token with
      | error e => rfl
      | ok r =>
        -- what is placed for another token has waited, and no operand waits
        have hplaced : operands r.1 = [] := by
          rw [transition_operands (transition_of_step hs)]
          simp [operands, ht]
        simp only [bind, Except.bind, ih hf]
        cases feed r.2 tokens with
        | error e => rfl
        | ok q =>
          exact congrArg Except.ok (Prod.ext (refill_append_left hplaced fillings q.1).symm rfl)

theorem ofInfix_refill (hf : ∀ filling ∈ fillings, filling.isOperand = true)
    (tokens : List Token) :
    ofInfix (refill fillings tokens) = (ofInfix tokens).map (refill fillings) := by
  rw [ofInfix, ofInfix, isEmpty_refill, feed_refill hf]
  cases tokens.isEmpty with
  | true => rfl
  | false =>
    cases feed start tokens with
    | error e => rfl
    | ok r =>
      simp only [bind, Except.bind, Except.map, pure, Except.pure]
      by_cases hs : Closed r.2.pending
      · rw [finish_of_closed hs]
        simp [refill_append_right (operands_placedBy r.2.pending)]
      · rw [finish_of_opened hs]
        rfl

theorem map_eq_refill (hg : KeepsKinds g) (tokens : List Token) :
    tokens.map g = refill ((operands tokens).map g) tokens := by
  induction tokens with
  | nil => rfl
  | cons token tokens ih =>
    rw [List.map_cons, ih]
    cases ht : token.isOperand with
    | true =>
      have ho : operands (token :: tokens) = token :: operands tokens :=
        List.filter_cons_of_pos ht
      rw [ho, refill_operand ht]
      rfl
    | false =>
      have ho : operands (token :: tokens) = operands tokens := by simp [operands, ht]
      rw [ho, refill_other ht, hg.other token ht]

/-- A replacement that depends on the operand alone can be made before or after as well. -/
theorem ofInfix_map (hg : KeepsKinds g) (tokens : List Token) :
    ofInfix (tokens.map g) = (ofInfix tokens).map (List.map g) := by
  have hf : ∀ filling ∈ (operands tokens).map g, filling.isOperand = true := by
    intro filling hm
    obtain ⟨token, ht, rfl⟩ := List.mem_map.mp hm
    exact hg.operand token (List.mem_filter.mp ht).2
  rw [map_eq_refill hg, ofInfix_refill hf]
  cases hp : ofInfix tokens with
  | error e => rfl
  | ok p =>
    refine congrArg Except.ok ?_
    rw [map_eq_refill hg p, operands_ofInfix hp]

theorem keepsKinds_bind (v : Float) : KeepsKinds (Token.bind v) where
  operand token h := by
    cases token with
    | number value => rfl
    | unknown => rfl
    | function f => cases h
    | operator op => cases h
  other token h := by
    cases token with
    | unknown => cases h
    | number value => rfl
    | function f => rfl
    | operator op => rfl

end Postfix

/-! ## The value of what is replaced -/

namespace Evaluation

variable (env : Environment) (ctx : Context) (v : Float)

/-- The number does to the stack what the unknown does that is bound to it. -/
theorem step_bind (stack : List Float) (token : Token) :
    (step env ctx stack (token.bind v)).2 = (step (.constant v) ctx stack token).2 := by
  cases token with
  | unknown => rfl
  | number value => rfl
  | function f => exact congrArg Prod.snd (step_congr ctx env _ stack nofun)
  | operator op => exact congrArg Prod.snd (step_congr ctx env _ stack nofun)

theorem run_bind (stack : List Float) (tokens : List Token) :
    run env ctx stack (tokens.map (Token.bind v)) = run (.constant v) ctx stack tokens := by
  induction tokens generalizing stack with
  | nil => rfl
  | cons token tokens ih =>
    rw [List.map_cons, run_cons, run_cons, step_bind]
    congr 1
    funext later
    exact ih later

theorem value_bind (tokens : List Token) :
    value env ctx (tokens.map (Token.bind v)) = value (.constant v) ctx tokens := by
  rw [value, value, run_bind]

end Evaluation

namespace Expression

variable {ctx : Context} {v : Float}

theorem hasUnknown_bind (expression : Expression) : (expression.bind v).hasUnknown = false := by
  rw [Bool.eq_false_iff]
  intro h
  obtain ⟨token, -, ht⟩ := List.mem_map.mp ((hasUnknown_iff _).mp h)
  cases token <;> cases ht

theorem ofTokens_map {g : Token → Token} (hg : Postfix.KeepsKinds g) (tokens : List Token) :
    ofTokens (tokens.map g) = (ofTokens tokens).map fun e => ⟨e.tokens.map g⟩ := by
  rw [ofTokens, ofTokens, Postfix.ofInfix_map hg]
  cases Postfix.ofInfix tokens <;> rfl

end Expression

open Postfix

/-- Putting a number in the place of the unknown before the conversion gives the expression that
it gives afterwards, or the same failure. No unknown is left in it, and in every environment it
has the value, or the failure, of the expression whose unknown is bound to the number. So with any
replacement of operands by operands, at every place its own or for every operand its own. -/
theorem ofTokens_bind (ctx : Context) (v : Float) (tokens : List Token) :
    Expression.ofTokens (tokens.map (Token.bind v)) =
      (Expression.ofTokens tokens).map (Expression.bind v) ∧
    (∀ expression : Expression, (expression.bind v).hasUnknown = false ∧
      ∀ env, (expression.bind v).evaluate env ctx = expression.evaluateAt ctx v) ∧
    (∀ fillings, (∀ filling ∈ fillings, filling.isOperand = true) →
      ofInfix (refill fillings tokens) = (ofInfix tokens).map (refill fillings)) ∧
    (∀ g, KeepsKinds g → ofInfix (tokens.map g) = (ofInfix tokens).map (List.map g)) := by
  refine ⟨Expression.ofTokens_map (keepsKinds_bind v) tokens, ?_, ?_, ?_⟩
  · intro expression
    exact ⟨expression.hasUnknown_bind, fun env => Evaluation.value_bind env ctx v _⟩
  · intro fillings hf
    exact ofInfix_refill hf tokens
  · intro g hg
    exact ofInfix_map hg tokens

/-- The statement above for `|x - 3| = x!` with the unknown bound to 2, with its operands replaced
by `1`, `x` and `2`, and with every operand replaced by the unknown. -/
theorem ofTokens_bind_equation :
    let bar : Token := .operator (.unary .bar)
    let minus : Token := .operator (.binary .minus)
    let equals : Token := .operator (.binary .equals)
    let factorial : Token := .operator (.unary .factorial)
    let tokens : List Token := [bar, .unknown, minus, .number 3, bar, equals, .unknown, factorial]
    let fillings : List Token := [.number 1, .unknown, .number 2]
    let blank : Token → Token := fun token => if token.isOperand then .unknown else token
    Expression.ofTokens (tokens.map (Token.bind 2)) =
      .ok ⟨[.number 2, .number 3, minus, bar, .number 2, factorial, equals]⟩ ∧
    (∀ filling ∈ fillings, filling.isOperand = true) ∧
    ofInfix (refill fillings tokens) =
      .ok [.number 1, .unknown, minus, bar, .number 2, factorial, equals] ∧
    KeepsKinds blank ∧
    ofInfix (tokens.map blank) =
      .ok [.unknown, .unknown, minus, bar, .unknown, factorial, equals] := by
  intro bar minus equals factorial tokens fillings blank
  obtain ⟨hbind, -, hrefill, hmap⟩ := ofTokens_bind (Mode.context {}) 2 tokens
  have hf : ∀ filling ∈ fillings, filling.isOperand = true := by
    simp [fillings, Token.isOperand]
  have hg : KeepsKinds blank := by
    refine ⟨fun token h => ?_, fun token h => if_neg (Bool.eq_false_iff.mp h)⟩
    rw [show blank token = .unknown from if_pos h]
    rfl
  exact ⟨hbind, hf, hrefill fillings hf, hg, hmap blank hg⟩

end Calculator
