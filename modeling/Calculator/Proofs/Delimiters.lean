import Calculator.Proofs.Conversion

/-!
# Which lists convert

Whether a list of tokens converts depends on its delimiters alone. They are read here by an
automaton that knows nothing of operators waiting on a stack, of how tightly they bind or of
functions. The groups open in the conversion are the groups open in the automaton after every
token, so both fail at the same token, and both end with the same groups open.
-/

namespace Calculator.Postfix

/-- Is an operand complete after the token? A bar closes a group where one was complete before
it, which is then complete itself, and opens a group elsewhere. -/
def completes (before : Bool) : Token → Bool
  | .number _ | .unknown | .operator .closeParen | .operator (.unary .factorial) => true
  | .operator (.unary .bar) => before
  | _ => false

/-- Closes the innermost group, which must be one that `d` opened. -/
def close (d : Delimiter) : List Delimiter → Option (List Delimiter)
  | found :: groups => if found = d then some groups else none
  | [] => none

/-- The open groups after the token. A comma leaves the parenthesis it stands in open. -/
def nest (completed : Bool) (groups : List Delimiter) : Token → Option (List Delimiter)
  | .operator .openParen => some (.paren :: groups)
  | .operator .closeParen => close .paren groups
  | .operator .comma => (close .paren groups).map (.paren :: ·)
  | .operator (.unary .bar) =>
    if completed then close .bar groups else some (.bar :: groups)
  | _ => some groups

/-- The open groups after the tokens, if every delimiter finds its partner. -/
def nestings (completed : Bool) (groups : List Delimiter) :
    List Token → Option (List Delimiter)
  | [] => some groups
  | token :: tokens =>
    (nest completed groups token).bind fun later =>
      nestings (completes completed token) later tokens

/-- Every delimiter finds its partner, and no group stays open. -/
def Matched (tokens : List Token) : Prop := nestings false [] tokens = some []

instance (tokens : List Token) : Decidable (Matched tokens) :=
  inferInstanceAs (Decidable (_ = _))

@[simp] theorem close_cons (d : Delimiter) (groups : List Delimiter) :
    close d (d :: groups) = some groups := if_pos rfl

theorem close_of_ne {d : Delimiter} {groups : List Delimiter} (h : groups.head? ≠ some d) :
    close d groups = none := by
  cases groups with
  | nil => rfl
  | cons found groups =>
    have hf : found ≠ d := by
      intro he
      exact h (congrArg some he)
    exact if_neg hf

/-- Only operators make way for one that comes next, never an opened group. -/
theorem closed_takeWhile_precedes (op : Operator) (pending : List Pending) :
    Closed (pending.takeWhile (·.precedes op)) := by
  intro p hp
  have h := List.all_eq_true.mp List.all_takeWhile p hp
  cases p with
  | operator op => rfl
  | function f => rfl
  | opening d => cases h

theorem opened_dropWhile_precedes (op : Operator) (pending : List Pending) :
    opened (pending.dropWhile (·.precedes op)) = opened pending := by
  have h := opened_closed (closed_takeWhile_precedes op pending)
    (pending.dropWhile (·.precedes op))
  rw [List.takeWhile_append_dropWhile] at h
  exact h.symm

/-- One token moves the groups on the stack as it moves those of the automaton. -/
theorem transition_nest {s u : State} {token : Token} {placed : List Token}
    (h : Transition s token placed u) :
    u.afterOperand = completes s.afterOperand token ∧
      nest s.afterOperand (opened s.pending) token = some (opened u.pending) := by
  cases h with
  | number value => exact ⟨rfl, rfl⟩
  | unknown => exact ⟨rfl, rfl⟩
  | function f => exact ⟨rfl, rfl⟩
  | openParen => exact ⟨rfl, rfl⟩
  | closeCall ha hs =>
    refine ⟨rfl, ?_⟩
    rw [hs, opened_closed ha]
    simp [nest]
  | closeParen ha hs hb =>
    refine ⟨rfl, ?_⟩
    rw [hs, opened_closed ha]
    simp [nest]
  | comma ha hs =>
    refine ⟨rfl, ?_⟩
    rw [hs, opened_closed ha]
    simp [nest]
  | closeBar hc ha hs =>
    refine ⟨hc.symm, ?_⟩
    rw [hs, opened_closed ha]
    simp [nest, hc]
  | openBar hc =>
    refine ⟨hc.symm, ?_⟩
    simp [nest, hc]
  | plus hc => exact ⟨hc, rfl⟩
  | sign hc hop => rcases hop with rfl | rfl <;> exact ⟨rfl, rfl⟩
  | @operator op hop hc =>
    rw [opened_operator, opened_dropWhile_precedes]
    cases op with
    | unary op =>
      cases op with
      | factorial => exact ⟨rfl, rfl⟩
      | bar => cases hop
      | negate => exact ⟨rfl, rfl⟩
    | binary op => exact ⟨rfl, rfl⟩
    | openParen => cases hop
    | closeParen => cases hop
    | comma => cases hop

theorem nest_of_needs {completed : Bool} {groups : List Delimiter} {token : Token}
    {d : Delimiter} (hn : needs completed token = some d) (hg : groups.head? ≠ some d) :
    nest completed groups token = none := by
  unfold needs at hn
  split at hn
  · cases hn
    exact close_of_ne hg
  · cases hn
    simp [nest, close_of_ne hg]
  · cases completed with
    | false => cases hn
    | true =>
      cases hn
      exact close_of_ne hg
  · cases hn

/-- Along every list, the conversion and the automaton go on together or fail together. -/
theorem feed_nestings (s : State) (tokens : List Token) :
    (∃ placed u, feed s tokens = .ok (placed, u) ∧
      nestings s.afterOperand (opened s.pending) tokens = some (opened u.pending)) ∨
    (feed s tokens = .error .unbalancedParentheses ∧
      nestings s.afterOperand (opened s.pending) tokens = none) := by
  induction tokens generalizing s with
  | nil => exact .inl ⟨[], s, rfl, rfl⟩
  | cons token tokens ih =>
    rw [nestings]
    obtain ⟨placed, u, ht⟩ | ⟨he, d, hn, hd⟩ := exists_transition s token
    · obtain ⟨hc, hg⟩ := transition_nest ht
      rw [hg, Option.bind_some, ← hc]
      obtain ⟨later, v, hf, ha⟩ | ⟨hf, ha⟩ := ih u
      · exact .inl ⟨_, v, feed_cons_of_ok ht hf, ha⟩
      · refine .inr ⟨?_, ha⟩
        rw [feed_cons, step_of_transition ht]
        simp only [bind, Except.bind, hf]
    · right
      constructor
      · rw [feed_cons, he]
        rfl
      · rw [nest_of_needs hn hd]
        rfl

/-- The three outcomes of a conversion, one of which every list has. -/
theorem ofInfix_cases (tokens : List Token) :
    (tokens = [] ∧ ofInfix tokens = .error .emptyExpression) ∨
    (tokens ≠ [] ∧ Matched tokens ∧ ∃ p, ofInfix tokens = .ok p) ∨
    (tokens ≠ [] ∧ ¬ Matched tokens ∧ ofInfix tokens = .error .unbalancedParentheses) := by
  by_cases hn : tokens = []
  · subst tokens
    exact .inl ⟨rfl, rfl⟩
  · have he : tokens.isEmpty = false := by simpa using hn
    obtain ⟨placed, s, hf, ha⟩ | ⟨hf, ha⟩ := feed_nestings start tokens
    · by_cases hs : Closed s.pending
      · have hm : Matched tokens := by
          rw [(opened_eq_nil_iff s.pending).mpr hs] at ha
          exact ha
        exact .inr (.inl ⟨hn, hm, _, ofInfix_of_feed hn hf hs⟩)
      · refine .inr (.inr ⟨hn, ?_, ?_⟩)
        · intro hm
          have hg := Option.some.inj (ha.symm.trans hm)
          exact hs ((opened_eq_nil_iff s.pending).mp hg)
        · rw [ofInfix, he, hf]
          simp only [bind, Except.bind, finish_of_opened hs]
          rfl
    · refine .inr (.inr ⟨hn, ?_, ?_⟩)
      · intro hm
        cases ha.symm.trans hm
      · rw [ofInfix, he, hf]
        rfl

/-- No tokens, delimiters that match, and delimiters that do not: each has its own outcome, and
there is no other. -/
theorem ofInfix_outcome (tokens : List Token) :
    (ofInfix tokens = .error .emptyExpression ↔ tokens = []) ∧
    ((∃ p, ofInfix tokens = .ok p) ↔ tokens ≠ [] ∧ Matched tokens) ∧
    (ofInfix tokens = .error .unbalancedParentheses ↔ tokens ≠ [] ∧ ¬ Matched tokens) ∧
    ∀ e, ofInfix tokens = .error e → e = .emptyExpression ∨ e = .unbalancedParentheses := by
  obtain ⟨rfl, h⟩ | ⟨hn, hm, p, h⟩ | ⟨hn, hm, h⟩ := ofInfix_cases tokens
  · simp [h]
  · simp [h, hn, hm]
  · simp [h, hn, hm]

example : Matched [.operator (.unary .bar), .unknown, .operator (.unary .bar)] := by decide

example : ¬ Matched [.operator .openParen, .operator (.unary .bar), .unknown,
    .operator .closeParen, .operator (.unary .bar)] := by decide

end Calculator.Postfix
