import Calculator.Postfix

/-!
# What one token does to the stack

Every step of the conversion is one of twelve transitions, and a step that is none of them
fails for want of an open group. All that is said about the conversion of whole lists rests on
this case distinction.
-/

namespace Calculator.Postfix

/-- The tokens that leave when everything in `pending` does, from the top down. -/
def placedBy (pending : List Pending) : List Token := pending.filterMap Pending.token?

@[simp] theorem placedBy_nil : placedBy [] = [] := rfl

@[simp] theorem placedBy_operator (op : Operator) (pending : List Pending) :
    placedBy (.operator op :: pending) = .operator op :: placedBy pending := rfl

@[simp] theorem placedBy_function (f : Builtin) (pending : List Pending) :
    placedBy (.function f :: pending) = .function f :: placedBy pending := rfl

@[simp] theorem placedBy_opening (d : Delimiter) (pending : List Pending) :
    placedBy (.opening d :: pending) = placedBy pending := rfl

@[simp] theorem placedBy_append (above below : List Pending) :
    placedBy (above ++ below) = placedBy above ++ placedBy below :=
  List.filterMap_append

/-- Nothing in the list opens a group. -/
def Closed (pending : List Pending) : Prop := ∀ p ∈ pending, p.isOpening = false

@[simp] theorem closed_nil : Closed [] := by
  intro p hp
  cases hp

theorem closed_cons {p : Pending} {pending : List Pending} (hp : p.isOpening = false)
    (h : Closed pending) : Closed (p :: pending) := by
  intro q hq
  obtain rfl | hq := List.mem_cons.mp hq
  · exact hp
  · exact h q hq

/-- The groups that are open, the innermost first. -/
def opened (pending : List Pending) : List Delimiter :=
  pending.filterMap fun
    | .opening d => some d
    | _ => none

@[simp] theorem opened_nil : opened [] = [] := rfl

@[simp] theorem opened_operator (op : Operator) (pending : List Pending) :
    opened (.operator op :: pending) = opened pending := rfl

@[simp] theorem opened_function (f : Builtin) (pending : List Pending) :
    opened (.function f :: pending) = opened pending := rfl

@[simp] theorem opened_opening (d : Delimiter) (pending : List Pending) :
    opened (.opening d :: pending) = d :: opened pending := rfl

theorem opened_append (above below : List Pending) :
    opened (above ++ below) = opened above ++ opened below :=
  List.filterMap_append

theorem opened_eq_nil_iff (pending : List Pending) : opened pending = [] ↔ Closed pending := by
  induction pending with
  | nil => simp
  | cons p pending ih =>
    cases p with
    | operator op => simpa [Closed, Pending.isOpening] using ih
    | function f => simpa [Closed, Pending.isOpening] using ih
    | opening d => simp [Closed, Pending.isOpening]

theorem opened_closed {above : List Pending} (h : Closed above) (below : List Pending) :
    opened (above ++ below) = opened below := by
  rw [opened_append, (opened_eq_nil_iff above).mpr h, List.nil_append]

/-- Either no group is open, or the innermost one can be told from what lies above it. -/
theorem closed_or_split (pending : List Pending) :
    Closed pending ∨
      ∃ above d below, Closed above ∧ pending = above ++ .opening d :: below := by
  induction pending with
  | nil => exact .inl closed_nil
  | cons p pending ih =>
    by_cases hp : p.isOpening = false
    · rcases ih with h | ⟨above, d, below, ha, rfl⟩
      · exact .inl (closed_cons hp h)
      · exact .inr ⟨p :: above, d, below, closed_cons hp ha, rfl⟩
    · cases p with
      | operator op => exact (hp rfl).elim
      | function f => exact (hp rfl).elim
      | opening d => exact .inr ⟨[], d, pending, closed_nil, rfl⟩

theorem takeWhile_closed {above : List Pending} (h : Closed above) (d : Delimiter)
    (below : List Pending) :
    (above ++ .opening d :: below).takeWhile (!·.isOpening) = above := by
  rw [List.takeWhile_append_of_pos (by simpa [Closed] using h)]
  simp [Pending.isOpening]

theorem dropWhile_closed {above : List Pending} (h : Closed above) (d : Delimiter)
    (below : List Pending) :
    (above ++ .opening d :: below).dropWhile (!·.isOpening) = .opening d :: below := by
  rw [List.dropWhile_append_of_pos (by simpa [Closed] using h)]
  simp [Pending.isOpening]

/-- A group ends with all that waits above its opening, and with nothing from below. -/
theorem closeGroup_append {above : List Pending} (h : Closed above) (d : Delimiter)
    (below : List Pending) :
    closeGroup d (above ++ .opening d :: below) = .ok (placedBy above, below) := by
  rw [closeGroup, dropWhile_closed h, takeWhile_closed h]
  exact if_pos rfl

/-- A group cannot end where the innermost open group is of another kind, or where none is. -/
theorem closeGroup_cases (d : Delimiter) (pending : List Pending) :
    (∃ above below, Closed above ∧ pending = above ++ .opening d :: below ∧
      closeGroup d pending = .ok (placedBy above, below)) ∨
    ((opened pending).head? ≠ some d ∧
      closeGroup d pending = .error .unbalancedParentheses) := by
  obtain h | ⟨above, found, below, ha, rfl⟩ := closed_or_split pending
  · right
    constructor
    · simp [(opened_eq_nil_iff pending).mpr h]
    · have hd : pending.dropWhile (!·.isOpening) = [] := by
        rw [← List.append_nil pending, List.dropWhile_append_of_pos (by simpa [Closed] using h)]
        rfl
      rw [closeGroup, hd]
  · by_cases hf : found = d
    · subst found
      exact .inl ⟨above, below, ha, rfl, closeGroup_append ha d below⟩
    · right
      constructor
      · rw [opened_closed ha]
        simpa using hf
      · rw [closeGroup, dropWhile_closed ha]
        exact if_neg hf

/-- The operators that stand for a sign where an operand is expected. -/
def isSign : Operator → Bool
  | .binary .plus | .binary .minus | .unary .negate => true
  | _ => false

/-- The transitions from `s`: the token taken, what is placed, and the state after it. -/
inductive Transition (s : State) : Token → List Token → State → Prop where
  | number (value : Float) : Transition s (.number value) [.number value] ⟨s.pending, true⟩
  | unknown : Transition s .unknown [.unknown] ⟨s.pending, true⟩
  | function (f : Builtin) :
    Transition s (.function f) [] ⟨.function f :: s.pending, false⟩
  | openParen : Transition s (.operator .openParen) [] ⟨.opening .paren :: s.pending, false⟩
  | closeCall {above below : List Pending} {f : Builtin} (ha : Closed above)
      (hs : s.pending = above ++ .opening .paren :: .function f :: below) :
    Transition s (.operator .closeParen) (placedBy above ++ [.function f]) ⟨below, true⟩
  | closeParen {above below : List Pending} (ha : Closed above)
      (hs : s.pending = above ++ .opening .paren :: below)
      (hb : ∀ f, below.head? ≠ some (.function f)) :
    Transition s (.operator .closeParen) (placedBy above) ⟨below, true⟩
  | comma {above below : List Pending} (ha : Closed above)
      (hs : s.pending = above ++ .opening .paren :: below) :
    Transition s (.operator .comma) (placedBy above) ⟨.opening .paren :: below, false⟩
  | closeBar {above below : List Pending} (hc : s.afterOperand = true) (ha : Closed above)
      (hs : s.pending = above ++ .opening .bar :: below) :
    Transition s (.operator (.unary .bar)) (placedBy above ++ [.operator (.unary .bar)])
      ⟨below, true⟩
  | openBar (hc : s.afterOperand = false) :
    Transition s (.operator (.unary .bar)) [] ⟨.opening .bar :: s.pending, false⟩
  | plus (hc : s.afterOperand = false) : Transition s (.operator (.binary .plus)) [] s
  | sign {op : Operator} (hc : s.afterOperand = false)
      (hop : op = .binary .minus ∨ op = .unary .negate) :
    Transition s (.operator op) [] ⟨.operator (.unary .negate) :: s.pending, false⟩
  | operator {op : Operator} (hop : op.precedence.isSome = true)
      (hc : s.afterOperand = true ∨ isSign op = false) :
    Transition s (.operator op) (placedBy (s.pending.takeWhile (·.precedes op)))
      ⟨.operator op :: s.pending.dropWhile (·.precedes op), op == .unary .factorial⟩

theorem step_of_transition {s u : State} {token : Token} {placed : List Token}
    (h : Transition s token placed u) : step s token = .ok (placed, u) := by
  cases h with
  | number value => rfl
  | unknown => rfl
  | function f => rfl
  | openParen => rfl
  | closeCall ha hs =>
    simp only [step, hs, closeGroup_append ha]
    rfl
  | @closeParen above below ha hs hb =>
    simp only [step, hs, closeGroup_append ha]
    cases below with
    | nil => rfl
    | cons p below =>
      cases p with
      | operator op => rfl
      | function f => exact (hb f rfl).elim
      | opening d => rfl
  | comma ha hs =>
    simp only [step, hs, closeGroup_append ha]
    rfl
  | closeBar hc ha hs =>
    simp only [step, hc, hs, closeGroup_append ha]
    rfl
  | openBar hc => simp [step, hc]
  | plus hc => simp [step, hc]
  | sign hc hop => rcases hop with rfl | rfl <;> simp [step, hc]
  | @operator op hop hc =>
    cases op with
    | unary op =>
      cases op with
      | factorial => cases hf : s.afterOperand <;> simp [step, hf, putOperator, placedBy]
      | bar => cases hop
      | negate =>
        rcases hc with hc | hc
        · simp [step, hc, putOperator, placedBy]
        · cases hc
    | binary op =>
      rcases hc with hc | hc
      · simp [step, hc, putOperator, placedBy]
      · cases hf : s.afterOperand <;> cases op <;>
          simp_all [step, isSign, putOperator, placedBy]
    | openParen => cases hop
    | closeParen => cases hop
    | comma => cases hop

/-- The kind of group that the token can only follow while it is the innermost one. -/
def needs (completed : Bool) : Token → Option Delimiter
  | .operator .closeParen | .operator .comma => some .paren
  | .operator (.unary .bar) => if completed then some .bar else none
  | _ => none

/-- Every token has a transition, unless it needs a group that is not the innermost one. -/
theorem exists_transition (s : State) (token : Token) :
    (∃ placed u, Transition s token placed u) ∨
    (step s token = .error .unbalancedParentheses ∧
      ∃ d, needs s.afterOperand token = some d ∧ (opened s.pending).head? ≠ some d) := by
  cases token with
  | number value => exact .inl ⟨_, _, .number value⟩
  | unknown => exact .inl ⟨_, _, .unknown⟩
  | function f => exact .inl ⟨_, _, .function f⟩
  | operator op =>
    cases op with
    | unary op =>
      cases op with
      | factorial => exact .inl ⟨_, _, .operator rfl (.inr rfl)⟩
      | bar =>
        cases hc : s.afterOperand with
        | false => exact .inl ⟨_, _, .openBar hc⟩
        | true =>
          obtain ⟨above, below, ha, hs, -⟩ | ⟨hd, he⟩ := closeGroup_cases .bar s.pending
          · exact .inl ⟨_, _, .closeBar hc ha hs⟩
          · refine .inr ⟨?_, .bar, rfl, hd⟩
            simp only [step, hc, he]
            rfl
      | negate =>
        cases hc : s.afterOperand with
        | false => exact .inl ⟨_, _, .sign hc (.inr rfl)⟩
        | true => exact .inl ⟨_, _, .operator rfl (.inl hc)⟩
    | binary op =>
      cases hc : s.afterOperand with
      | false =>
        cases op with
        | plus => exact .inl ⟨_, _, .plus hc⟩
        | minus => exact .inl ⟨_, _, .sign hc (.inl rfl)⟩
        | times => exact .inl ⟨_, _, .operator rfl (.inr rfl)⟩
        | divide => exact .inl ⟨_, _, .operator rfl (.inr rfl)⟩
        | modulo => exact .inl ⟨_, _, .operator rfl (.inr rfl)⟩
        | power => exact .inl ⟨_, _, .operator rfl (.inr rfl)⟩
        | equals => exact .inl ⟨_, _, .operator rfl (.inr rfl)⟩
      | true => exact .inl ⟨_, _, .operator (by cases op <;> rfl) (.inl hc)⟩
    | openParen => exact .inl ⟨_, _, .openParen⟩
    | closeParen =>
      obtain ⟨above, below, ha, hs, -⟩ | ⟨hd, he⟩ := closeGroup_cases .paren s.pending
      · by_cases hb : ∃ f, below.head? = some (.function f)
        · obtain ⟨f, hf⟩ := hb
          obtain ⟨below, rfl⟩ := List.head?_eq_some_iff.mp hf
          exact .inl ⟨_, _, .closeCall ha hs⟩
        · exact .inl ⟨_, _, .closeParen ha hs (fun f hf => hb ⟨f, hf⟩)⟩
      · refine .inr ⟨?_, .paren, rfl, hd⟩
        simp only [step, he]
        rfl
    | comma =>
      obtain ⟨above, below, ha, hs, -⟩ | ⟨hd, he⟩ := closeGroup_cases .paren s.pending
      · exact .inl ⟨_, _, .comma ha hs⟩
      · refine .inr ⟨?_, .paren, rfl, hd⟩
        simp only [step, he]
        rfl

theorem transition_of_step {s u : State} {token : Token} {placed : List Token}
    (h : step s token = .ok (placed, u)) : Transition s token placed u := by
  obtain ⟨placed', u', ht⟩ | ⟨he, -⟩ := exists_transition s token
  · have hs := step_of_transition ht
    rw [h] at hs
    cases hs
    exact ht
  · rw [h] at he
    cases he

/-! ## Lists of tokens -/

theorem feed_cons_of_ok {s u final : State} {token : Token} {tokens placed later : List Token}
    (h : Transition s token placed u) (h' : feed u tokens = .ok (later, final)) :
    feed s (token :: tokens) = .ok (placed ++ later, final) := by
  rw [feed_cons, step_of_transition h]
  simp only [bind, Except.bind, h']
  rfl

theorem feed_cons_eq_ok {s final : State} {token : Token} {tokens placed : List Token}
    (h : feed s (token :: tokens) = .ok (placed, final)) :
    ∃ now u later, Transition s token now u ∧ feed u tokens = .ok (later, final) ∧
      placed = now ++ later := by
  rw [feed_cons] at h
  cases hs : step s token with
  | error e => simp [hs, bind, Except.bind] at h
  | ok r =>
    cases hf : feed r.2 tokens with
    | error e => simp [hs, hf, bind, Except.bind] at h
    | ok q =>
      simp only [hs, hf, bind, Except.bind, pure, Except.pure, Except.ok.injEq,
        Prod.mk.injEq] at h
      obtain ⟨hp, hu⟩ := h
      refine ⟨r.1, r.2, q.1, transition_of_step hs, ?_, hp.symm⟩
      rw [hf, ← hu]

theorem feed_append_of_ok {s t u : State} {tokens more placed later : List Token}
    (h : feed s tokens = .ok (placed, t)) (h' : feed t more = .ok (later, u)) :
    feed s (tokens ++ more) = .ok (placed ++ later, u) := by
  rw [feed_append, h]
  simp only [bind, Except.bind, h']
  rfl

theorem feed_singleton {s u : State} {token : Token} {placed : List Token}
    (h : Transition s token placed u) : feed s [token] = .ok (placed, u) := by
  simpa using feed_cons_of_ok h (feed_nil u)

/-- The end of the tokens is the end of everything that waits, where no group is open. -/
theorem finish_of_closed {s : State} (h : Closed s.pending) :
    finish s = .ok (placedBy s.pending) := by
  have hn : s.pending.any Pending.isOpening = false := by simpa [Closed] using h
  rw [finish, hn]
  rfl

theorem finish_of_opened {s : State} (h : ¬ Closed s.pending) :
    finish s = .error .unbalancedParentheses := by
  have hn : s.pending.any Pending.isOpening = true := by simpa [Closed] using h
  rw [finish, hn]
  rfl

/-- A list converts if it can be fed with no group left open. -/
theorem ofInfix_of_feed {tokens placed : List Token} {s : State} (hn : tokens ≠ [])
    (h : feed start tokens = .ok (placed, s)) (hs : Closed s.pending) :
    ofInfix tokens = .ok (placed ++ placedBy s.pending) := by
  have he : tokens.isEmpty = false := by simpa using hn
  rw [ofInfix, he, h]
  simp only [bind, Except.bind, finish_of_closed hs]
  rfl

/-- Only then does it convert. -/
theorem feed_of_ofInfix {tokens p : List Token} (h : ofInfix tokens = .ok p) :
    ∃ placed s, feed start tokens = .ok (placed, s) ∧ Closed s.pending ∧
      p = placed ++ placedBy s.pending := by
  by_cases hn : tokens = []
  · subst tokens
    cases h
  have he : tokens.isEmpty = false := by simpa using hn
  rw [ofInfix, he] at h
  cases hf : feed start tokens with
  | error e => simp [hf, bind, Except.bind] at h
  | ok r =>
    by_cases hs : Closed r.2.pending
    · refine ⟨r.1, r.2, rfl, hs, ?_⟩
      simp only [hf, bind, Except.bind, finish_of_closed hs, pure, Except.pure] at h
      cases h
      rfl
    · simp [hf, bind, Except.bind, finish_of_opened hs] at h

end Calculator.Postfix
