import Calculator.Proofs.Agreement
import Calculator.Proofs.Frame
import Calculator.Proofs.Meaning
import Calculator.Solution

/-!
# Equations

The equals sign binds loosest, so every operator that waits outside all groups leaves when it
comes. A function does not: it waits for the parenthesis that ends its arguments, and without
one for the end of its group. So an equation is made of its two sides unless a function is
called without parentheses in the left one, which then takes the whole equation for its argument.
-/

namespace Calculator

namespace Postfix

/-- The equals sign. -/
def equals : Token := .operator (.binary .equals)

/-- The function still waits for its argument at the end of the tokens. -/
def Waits (f : Builtin) (tokens : List Token) : Prop :=
  ∃ placed s, feed start tokens = .ok (placed, s) ∧ .function f ∈ s.pending

/-- Some function still waits at the end of the tokens. -/
def OpenCall (tokens : List Token) : Prop := ∃ f, Waits f tokens

/-- Every function is directly followed by the parenthesis of its arguments. -/
def Parenthesized : List Token → Prop
  | [] => True
  | token :: rest =>
    (∀ f, token = .function f → rest.head? = some (.operator .openParen)) ∧ Parenthesized rest

variable {s u : State} {token : Token} {tokens placed : List Token} {pending : List Pending}

/-! ## What waits at the equals sign -/

/-- Every operator that waits has a precedence. -/
def Ranked (pending : List Pending) : Prop :=
  ∀ op, .operator op ∈ pending → op.precedence.isSome = true

theorem Ranked.of_subset {more : List Pending} (h : Ranked pending) (hs : more ⊆ pending) :
    Ranked more := by
  intro op hm
  exact h op (hs hm)

theorem Ranked.cons {p : Pending} (h : Ranked pending)
    (hp : ∀ op, p = .operator op → op.precedence.isSome = true) : Ranked (p :: pending) := by
  intro op hm
  obtain he | hm := List.mem_cons.mp hm
  · exact hp op he.symm
  · exact h op hm

theorem transition_ranked (h : Transition s token placed u) (hr : Ranked s.pending) :
    Ranked u.pending := by
  cases h with
  | number value => exact hr
  | unknown => exact hr
  | function f => exact hr.cons (by simp)
  | openParen => exact hr.cons (by simp)
  | closeCall ha hs =>
    refine hr.of_subset ?_
    intro p hp
    simp [hs, hp]
  | closeParen ha hs hb => exact hr.of_subset (by simp [hs])
  | comma ha hs => exact hr.of_subset (by simp [hs])
  | closeBar hc ha hs => exact hr.of_subset (by simp [hs])
  | openBar hc => exact hr.cons (by simp)
  | plus hc => exact hr
  | sign hc hop => exact hr.cons (by simp [Operator.precedence])
  | @operator op hop hc =>
    refine (hr.of_subset (List.dropWhile_subset _)).cons ?_
    intro op' he
    cases he
    exact hop

theorem feed_ranked (h : feed s tokens = .ok (placed, u)) (hr : Ranked s.pending) :
    Ranked u.pending := by
  induction tokens generalizing s placed with
  | nil =>
    cases h
    exact hr
  | cons token tokens ih =>
    obtain ⟨now, v, later, ht, hf, rfl⟩ := feed_cons_eq_ok h
    exact ih hf (transition_ranked ht hr)

/-- The equals sign makes every operator leave. -/
theorem precedes_equals {op : Operator} (h : op.precedence.isSome = true) :
    (Pending.operator op).precedes (.binary .equals) = true := by
  cases op with
  | unary op => cases op <;> first | rfl | cases h
  | binary op => cases op <;> rfl
  | openParen => cases h
  | closeParen => cases h
  | comma => cases h

/-- It is left itself by no other operator. -/
theorem equals_precedes {op : Operator} (h : op ≠ .binary .equals) :
    (Pending.operator (.binary .equals)).precedes op = false := by
  cases op with
  | unary op => cases op <;> rfl
  | binary op => cases op <;> first | rfl | exact (h rfl).elim
  | openParen => rfl
  | closeParen => rfl
  | comma => rfl

/-- Outside all groups, what the equals sign leaves waiting begins with a function. -/
theorem dropWhile_equals (hc : Closed pending) (hr : Ranked pending) :
    ((∀ f, .function f ∉ pending) ∧ pending.dropWhile (·.precedes (.binary .equals)) = []) ∨
      ∃ f below, .function f ∈ pending ∧
        pending.dropWhile (·.precedes (.binary .equals)) = .function f :: below := by
  induction pending with
  | nil => exact .inl ⟨by simp, rfl⟩
  | cons p pending ih =>
    have hp := hc p List.mem_cons_self
    cases p with
    | opening d => cases hp
    | function f => exact .inr ⟨f, pending, List.mem_cons_self, rfl⟩
    | operator op =>
      have hop := precedes_equals (hr op List.mem_cons_self)
      rw [List.dropWhile_cons_of_pos hop]
      obtain ⟨hn, he⟩ | ⟨f, below, hm, he⟩ := ih (fun q hq => hc q (List.mem_cons_of_mem _ hq))
        (hr.of_subset (List.subset_cons_self _ _))
      · exact .inl ⟨by simpa using hn, he⟩
      · exact .inr ⟨f, below, List.mem_cons_of_mem _ hm, he⟩

variable {lhs rhs left right : List Token}

/-- An equation is its left side up to the first function that still waits, its right side and
the sign, and then the rest of the left side. -/
theorem ofInfix_equals (hl : ofInfix lhs = .ok left) (hr : ofInfix rhs = .ok right)
    (he : equals ∉ outermost false [] rhs) :
    ∃ front back, left = front ++ back ∧
      ofInfix (lhs ++ equals :: rhs) = .ok (front ++ (right ++ equals :: back)) ∧
      ((¬ OpenCall lhs ∧ back = []) ∨ ∃ f rest, Waits f lhs ∧ back = .function f :: rest) := by
  obtain ⟨pl, s, hfl, hsc, rfl⟩ := feed_of_ofInfix hl
  obtain ⟨pr, t, hfr, htc, rfl⟩ := feed_of_ofInfix hr
  have hranked : Ranked s.pending := feed_ranked hfl (by simp [Ranked, start])
  have hsign := @Transition.operator s (.binary .equals) rfl (.inr rfl)
  generalize habove : s.pending.takeWhile (·.precedes (.binary .equals)) = above at hsign
  generalize hbelow : s.pending.dropWhile (·.precedes (.binary .equals)) = below at hsign
  have hsplit : above ++ below = s.pending := by
    rw [← habove, ← hbelow, List.takeWhile_append_dropWhile]
  have hbc : Closed below := by
    intro p hp
    refine hsc p ?_
    rw [← hsplit]
    exact List.mem_append_right above hp
  -- the right side is fed over the sign and what it leaves waiting
  have hright : feed ⟨.operator (.binary .equals) :: below, false⟩ rhs =
      .ok (pr, ⟨t.pending ++ .operator (.binary .equals) :: below, t.afterOperand⟩) := by
    refine feed_over hfr (by simp) ?_
    intro p hp op hm
    cases hp
    refine equals_precedes ?_
    rintro rfl
    exact he hm
  have hall := feed_append_of_ok hfl (feed_cons_of_ok hsign hright)
  have hclosed : Closed (t.pending ++ .operator (.binary .equals) :: below) := by
    intro p hp
    obtain hp | hp := List.mem_append.mp hp
    · exact htc p hp
    · obtain rfl | hp := List.mem_cons.mp hp
      · rfl
      · exact hbc p hp
  refine ⟨pl ++ placedBy above, placedBy below, ?_, ?_, ?_⟩
  · rw [← hsplit, placedBy_append, List.append_assoc]
  · rw [equals, ofInfix_of_feed (by simp) hall hclosed]
    simp
  · obtain ⟨hn, hd⟩ | ⟨f, rest, hm, hd⟩ := dropWhile_equals hsc hranked
    · left
      rw [hbelow] at hd
      refine ⟨?_, by rw [hd]; rfl⟩
      rintro ⟨f, placed, s', hf', hm⟩
      cases hfl.symm.trans hf'
      exact hn f hm
    · right
      rw [hbelow] at hd
      exact ⟨f, placedBy rest, ⟨pl, s, hfl, hm⟩, by rw [hd]; rfl⟩

/-! ## Calls with parentheses -/

/-- Functions wait with their parenthesis open above them, and only so. -/
inductive Covered : List Pending → Prop where
  | nil : Covered []
  | operator (op : Operator) {below : List Pending} (h : Covered below) :
    Covered (.operator op :: below)
  | opening (d : Delimiter) {below : List Pending} (h : Covered below) :
    Covered (.opening d :: below)
  | call (f : Builtin) {below : List Pending} (h : Covered below) :
    Covered (.opening .paren :: .function f :: below)

theorem Covered.of_append {above below : List Pending} (ha : Closed above)
    (h : Covered (above ++ below)) : Covered below := by
  induction above with
  | nil => exact h
  | cons p above ih =>
    have hp := ha p List.mem_cons_self
    have ha' : Closed above := fun q hq => ha q (List.mem_cons_of_mem p hq)
    cases p with
    | operator op =>
      cases h with
      | operator op h => exact ih ha' h
    | function f => cases h
    | opening d => cases hp

/-- Where no group is open, no function waits so. -/
theorem Covered.function_not_mem (h : Covered pending) (hc : Closed pending) (f : Builtin) :
    .function f ∉ pending := by
  intro hm
  obtain ⟨above, below, rfl⟩ := List.append_of_mem hm
  have ha : Closed above := fun p hp => hc p (List.mem_append_left _ hp)
  cases h.of_append ha

/-- The parenthesis of a function that was read last comes next. -/
def Awaited (pending : List Pending) (tokens : List Token) : Prop :=
  Covered pending ∨ ∃ f below, pending = .function f :: below ∧ Covered below ∧
    tokens.head? = some (.operator .openParen)

theorem transition_covered (h : Transition s token placed u)
    (hp : Parenthesized (token :: tokens)) (ha : Awaited s.pending (token :: tokens)) :
    Awaited u.pending tokens := by
  obtain hs | ⟨f, below, hs, hb, ht⟩ := ha
  · cases h with
    | number value => exact .inl hs
    | unknown => exact .inl hs
    | function f => exact .inr ⟨f, _, rfl, hs, hp.1 f rfl⟩
    | openParen => exact .inl (.opening .paren hs)
    | closeCall ha hw =>
      rw [hw] at hs
      cases hs.of_append ha with
      | opening d h => cases h
      | call f h => exact .inl h
    | closeParen ha hw hb =>
      rw [hw] at hs
      cases hs.of_append ha with
      | opening d h => exact .inl h
      | call f h => exact (hb f rfl).elim
    | comma ha hw =>
      rw [hw] at hs
      exact .inl (hs.of_append ha)
    | closeBar hc ha hw =>
      rw [hw] at hs
      cases hs.of_append ha with
      | opening d h => exact .inl h
    | openBar hc => exact .inl (.opening .bar hs)
    | plus hc => exact .inl hs
    | sign hc hop => exact .inl (.operator _ hs)
    | @operator op hop hc =>
      rw [← List.takeWhile_append_dropWhile (p := (·.precedes op)) (l := s.pending)] at hs
      exact .inl (.operator op (hs.of_append (closed_takeWhile_precedes op s.pending)))
  · cases ht
    cases h with
    | openParen =>
      left
      rw [hs]
      exact .call f hb
    | sign hc hop => obtain he | he := hop <;> cases he
    | operator hop hc => cases hop

theorem feed_covered (h : feed s tokens = .ok (placed, u)) (hp : Parenthesized tokens)
    (ha : Awaited s.pending tokens) : Covered u.pending := by
  induction tokens generalizing s placed with
  | nil =>
    cases h
    obtain hs | ⟨f, below, hs, hb, ht⟩ := ha
    · exact hs
    · cases ht
  | cons token tokens ih =>
    obtain ⟨now, v, later, ht, hf, rfl⟩ := feed_cons_eq_ok h
    exact ih hf hp.2 (transition_covered ht hp ha)

/-- With its parentheses after every function, no function waits at the end. -/
theorem not_openCall_of_parenthesized {p : List Token} (h : ofInfix tokens = .ok p)
    (hp : Parenthesized tokens) : ¬ OpenCall tokens := by
  rintro ⟨f, placed, s, hf, hm⟩
  obtain ⟨placed', s', hf', hc, -⟩ := feed_of_ofInfix h
  cases hf.symm.trans hf'
  exact (feed_covered hf hp (.inl .nil)).function_not_mem hc f hm

end Postfix

/-! ## What the equation stands for -/

namespace Evaluation

/-- The value of the left tokens less that of the right ones. -/
def difference (env : Environment) (ctx : Context) (left right : List Token) :
    Except EvaluationError Float := do
  let a ← value env ctx left
  let b ← value env ctx right
  checked (BinaryOperator.symbol .equals) [a, b] (a - b)

variable {left right : List Token}

/-- Well-formed tokens leave their value over any stack. -/
theorem run_of_wellFormed (env : Environment) (ctx : Context)
    (h : Postfix.WellFormed left) (stack : List Float) :
    run env ctx stack left = (value env ctx left).map (· :: stack) := by
  obtain ⟨t, rfl⟩ := (Postfix.wellFormed_iff left).mp h
  have hv : value env ctx t.postorder = t.meaning env ctx := by
    rw [value, run_postorder]
    cases t.meaning env ctx <;> rfl
  rw [run_postorder, hv]

theorem value_equation (env : Environment) (ctx : Context) (hl : Postfix.WellFormed left)
    (hr : Postfix.WellFormed right) :
    value env ctx (left ++ right ++ [Postfix.equals]) = difference env ctx left right := by
  rw [value, run_append, run_append, run_of_wellFormed env ctx hl, difference]
  cases value env ctx left with
  | error e => rfl
  | ok a =>
    change ((run env ctx [a] right).bind _).bind _ = _
    rw [run_of_wellFormed env ctx hr]
    cases value env ctx right with
    | error e => rfl
    | ok b =>
      -- the right value is on top, the left one below it
      change (run env ctx [b, a] [Postfix.equals]).bind _ = _
      rw [Postfix.equals, run_singleton, step_eq env ctx rfl]
      simp only [Task.perform, BinaryOperator.apply, bind, Except.bind]
      cases checked (BinaryOperator.symbol .equals) [a, b] (a - b) <;> rfl

end Evaluation

namespace Postfix

variable {lhs rhs left right : List Token}

/-- Well-formed tokens begin with an operand, and so with no function. -/
theorem append_ne_function_cons (h : WellFormed right) (f : Builtin) (more rest : List Token) :
    right ++ more ≠ .function f :: rest := by
  intro he
  cases right with
  | nil => cases h
  | cons token right =>
    cases he
    obtain ⟨k, ho, hk, -⟩ := depthAfter_cons_eq_some h
    have hpos := f.arity_pos
    cases ho
    omega

/-- What is evaluated and solved, once the sides stand next to one another before the sign. -/
theorem solve_equation (hc : ofInfix (lhs ++ equals :: rhs) = .ok (left ++ right ++ [equals]))
    (hwl : WellFormed left) (hwr : WellFormed right) (ctx : Context) :
    ∃ expression, Expression.ofTokens (lhs ++ equals :: rhs) = .ok expression ∧
      (∀ env, expression.evaluate env ctx = Evaluation.difference env ctx left right) ∧
      (expression.solve ctx).2 =
        if .unknown ∈ lhs ∨ .unknown ∈ rhs then
          (Root.search fun x => Evaluation.difference (.constant x) ctx left right).outcome.map
            .root
        else ((Evaluation.difference .empty ctx left right).mapError .evaluation).map .value := by
  have hx := Expression.ofTokens_eq_ok hc
  have hv : ∀ env, Expression.evaluate env ctx ⟨left ++ right ++ [equals]⟩ =
      Evaluation.difference env ctx left right :=
    fun env => Evaluation.value_equation env ctx hwl hwr
  have hroot : Expression.findRoot ctx ⟨left ++ right ++ [equals]⟩ =
      Root.search fun x => Evaluation.difference (.constant x) ctx left right :=
    congrArg Root.search (funext fun x => hv (.constant x))
  have hu := Expression.hasUnknown_ofTokens hx
  refine ⟨_, hx, hv, ?_⟩
  rw [Expression.solve, hroot, hv]
  by_cases hm : .unknown ∈ lhs ∨ .unknown ∈ rhs
  · rw [if_pos hm, if_pos (hu.mpr (by simpa [equals] using hm))]
  · rw [if_neg hm, if_neg (fun hh => hm (by simpa [equals] using hu.mp hh))]

/-- An equation is its left side, its right side and the sign exactly if no function waits at the
end of the left side, and then it stands for the difference of its sides. Otherwise a function
that waits comes after the right side and the sign, as it takes them into its argument. -/
theorem ofInfix_equation (hl : ofInfix lhs = .ok left) (hr : ofInfix rhs = .ok right)
    (hwl : WellFormed left) (hwr : WellFormed right) (he : equals ∉ outermost false [] rhs) :
    (ofInfix (lhs ++ equals :: rhs) = .ok (left ++ right ++ [equals]) ↔ ¬ OpenCall lhs) ∧
    (Parenthesized lhs → ¬ OpenCall lhs) ∧
    (¬ OpenCall lhs → ∀ ctx, ∃ expression,
      Expression.ofTokens (lhs ++ equals :: rhs) = .ok expression ∧
      (∀ env, expression.evaluate env ctx = Evaluation.difference env ctx left right) ∧
      (expression.solve ctx).2 =
        if .unknown ∈ lhs ∨ .unknown ∈ rhs then
          (Root.search fun x => Evaluation.difference (.constant x) ctx left right).outcome.map
            .root
        else ((Evaluation.difference .empty ctx left right).mapError .evaluation).map .value) ∧
    (OpenCall lhs → ∃ front f rest, Waits f lhs ∧ left = front ++ .function f :: rest ∧
      ofInfix (lhs ++ equals :: rhs) =
        .ok (front ++ (right ++ equals :: .function f :: rest))) := by
  obtain ⟨front, back, rfl, hc, hcase⟩ := ofInfix_equals hl hr he
  have hclosed : ¬ OpenCall lhs →
      ofInfix (lhs ++ equals :: rhs) = .ok (front ++ back ++ right ++ [equals]) := by
    intro ho
    obtain ⟨-, rfl⟩ | ⟨f, rest, hw, -⟩ := hcase
    · rw [hc]
      simp
    · exact (ho ⟨f, hw⟩).elim
  refine ⟨⟨?_, hclosed⟩, not_openCall_of_parenthesized hl, ?_, ?_⟩
  · rintro hx hopen
    obtain ⟨ho, -⟩ | ⟨f, rest, -, rfl⟩ := hcase
    · exact ho hopen
    · -- both lists go on after `front`, one with the right side and one with the function
      rw [hc] at hx
      simp only [Except.ok.injEq, List.append_assoc, List.append_cancel_left_eq] at hx
      exact append_ne_function_cons hwr f _ _ hx
  · intro ho
    exact solve_equation (hclosed ho) hwl hwr
  · intro hopen
    obtain ⟨ho, -⟩ | ⟨f, rest, hw, rfl⟩ := hcase
    · exact (ho hopen).elim
    · exact ⟨front, f, rest, hw, rfl, hc⟩

/-- The statement above at `abs(x) = 5` and at `abs -5 = 5`. -/
theorem ofInfix_equation_abs :
    let call : List Token :=
      [.function .abs, .operator .openParen, .unknown, .operator .closeParen]
    let bare : List Token := [.function .abs, .operator (.binary .minus), .number 5]
    (ofInfix call = .ok [.unknown, .function .abs] ∧ Parenthesized call ∧
      ofInfix (call ++ [equals, .number 5]) =
        .ok ([.unknown, .function .abs] ++ [.number 5] ++ [equals])) ∧
    (ofInfix bare = .ok [.number 5, .operator (.unary .negate), .function .abs] ∧
      OpenCall bare ∧
      ∃ front f rest, Waits f bare ∧
        [.number 5, .operator (.unary .negate), .function .abs] = front ++ .function f :: rest ∧
        ofInfix (bare ++ [equals, .number 5]) =
          .ok (front ++ ([.number 5] ++ equals :: .function f :: rest))) := by
  intro call bare
  have hfive : ofInfix [.number 5] = .ok [.number 5] := rfl
  have hout : equals ∉ outermost false [] [.number 5] := by simp [outermost, nest, equals]
  have hcall : Parenthesized call := by simp [Parenthesized, call]
  have hbare : OpenCall bare :=
    ⟨.abs, _, ⟨[.operator (.unary .negate), .function .abs], true⟩, rfl, by simp⟩
  have hc : ofInfix call = .ok [.unknown, .function .abs] := rfl
  have hb : ofInfix bare = .ok [.number 5, .operator (.unary .negate), .function .abs] := rfl
  obtain ⟨hiff, hclosed, -, -⟩ := ofInfix_equation hc hfive rfl rfl hout
  obtain ⟨-, -, -, hopen⟩ := ofInfix_equation hb hfive rfl rfl hout
  exact ⟨⟨hc, hcall, hiff.mpr (hclosed hcall)⟩, ⟨hb, hbare, hopen hbare⟩⟩

/-- A well-formed left side whose equation is not the difference of its sides. -/
theorem abs_takes_equation :
    let bare : List Token := [.function .abs, .operator (.binary .minus), .number 5]
    let left : List Token := [.number 5, .operator (.unary .negate), .function .abs]
    ofInfix bare = .ok left ∧ ofInfix [.number 5] = .ok [.number 5] ∧
      WellFormed left ∧ WellFormed [.number 5] ∧ equals ∉ outermost false [] [.number 5] ∧
      ofInfix (bare ++ equals :: [.number 5]) ≠ .ok (left ++ [.number 5] ++ [equals]) := by
  refine ⟨rfl, rfl, rfl, rfl, by simp [outermost, nest, equals], ?_⟩
  change Except.ok [.number 5, .operator (.unary .negate), .number 5, equals, .function .abs] ≠ _
  simp [equals]

end Postfix

end Calculator
