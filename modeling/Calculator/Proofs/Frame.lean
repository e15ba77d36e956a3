import Calculator.Proofs.Delimiters

/-!
# What waits below

Tokens can be fed with other things waiting below all that they leave there. These stay where
they are, and what is placed is the same, if no operator outside all groups makes their top
leave and their top is no function, which a parenthesis would call.
-/

namespace Calculator.Postfix

/-- The state with `base` below all that waits. -/
def State.over (s : State) (base : List Pending) : State := ⟨s.pending ++ base, s.afterOperand⟩

/-- The tokens that are read while no group is open. -/
def outermost (completed : Bool) (groups : List Delimiter) : List Token → List Token
  | [] => []
  | token :: tokens =>
    let later :=
      match nest completed groups token with
      | some later => outermost (completes completed token) later tokens
      | none => []
    if groups = [] then token :: later else later

/-- No operator of the tokens makes the top of `base` leave. -/
def Rests (base : List Pending) (tokens : List Token) : Prop :=
  ∀ p ∈ base.head?, ∀ op, .operator op ∈ tokens → p.precedes op = false

variable {s u : State} {token : Token} {tokens placed : List Token} {base : List Pending}

/-- An operator makes the same leave, unless everything above `base` would. -/
theorem split_precedes_over {op : Operator} {pending : List Pending}
    (h : Closed pending → ∀ p ∈ base.head?, p.precedes op = false) :
    (pending ++ base).takeWhile (·.precedes op) = pending.takeWhile (·.precedes op) ∧
      (pending ++ base).dropWhile (·.precedes op) = pending.dropWhile (·.precedes op) ++ base := by
  induction pending with
  | nil =>
    cases base with
    | nil => exact ⟨rfl, rfl⟩
    | cons p base =>
      have hp : p.precedes op = false := h closed_nil p rfl
      simp [hp]
  | cons p pending ih =>
    cases hp : p.precedes op with
    | false => simp [hp]
    | true =>
      have ho : p.isOpening = false := by
        cases p with
        | operator op => rfl
        | function f => rfl
        | opening d => cases hp
      obtain ⟨ht, hd⟩ := ih fun hc => h (closed_cons ho hc)
      simp [hp, ht, hd]

/-- One token does over `base` what it does over nothing, unless it closes a parenthesis that calls
the function on top of `base`. -/
theorem Transition.over (h : Transition s token placed u)
    (hf : s.pending.getLast? = some (.opening .paren) → ∀ f, base.head? ≠ some (.function f))
    (hr : Closed s.pending → Rests base [token]) :
    Transition (s.over base) token placed (u.over base) := by
  cases h with
  | number value => exact .number value
  | unknown => exact .unknown
  | function f => exact .function f
  | openParen => exact .openParen
  | closeCall ha hs =>
    refine .closeCall ha ?_
    simp [State.over, hs]
  | @closeParen above below ha hs hb =>
    refine .closeParen ha ?_ ?_
    · simp [State.over, hs]
    · cases below with
      | nil =>
        have hlast : s.pending.getLast? = some (.opening .paren) := by
          rw [hs]
          exact List.getLast?_concat
        exact hf hlast
      | cons p below => exact hb
  | comma ha hs =>
    refine .comma ha ?_
    simp [State.over, hs]
  | closeBar hc ha hs =>
    refine .closeBar hc ha ?_
    simp [State.over, hs]
  | openBar hc => exact .openBar hc
  | plus hc => exact .plus hc
  | sign hc hop => exact .sign hc hop
  | @operator op hop hc =>
    have hb : Closed s.pending → ∀ p ∈ base.head?, p.precedes op = false :=
      fun hs p hp => hr hs p hp op (List.mem_singleton.mpr rfl)
    obtain ⟨ht, hd⟩ := split_precedes_over hb
    have hover := @Transition.operator (s.over base) op hop hc
    simp only [State.over, ht, hd] at hover
    exact hover

theorem outermost_cons {completed : Bool} {groups later : List Delimiter}
    (h : nest completed groups token = some later) (tokens : List Token) :
    outermost completed groups (token :: tokens) =
      (if groups = [] then [token] else []) ++
        outermost (completes completed token) later tokens := by
  rw [outermost, h]
  split <;> rfl

theorem Rests.of_append {more : List Token} (h : Rests base (tokens ++ more)) :
    Rests base tokens ∧ Rests base more := by
  constructor
  · intro p hp op hm
    exact h p hp op (List.mem_append_left more hm)
  · intro p hp op hm
    exact h p hp op (List.mem_append_right tokens hm)

/-- So do tokens one after the other. -/
theorem feed_over (h : feed s tokens = .ok (placed, u))
    (hf : ∀ f, base.head? ≠ some (.function f))
    (hr : Rests base (outermost s.afterOperand (opened s.pending) tokens)) :
    feed (s.over base) tokens = .ok (placed, u.over base) := by
  induction tokens generalizing s placed with
  | nil =>
    cases h
    rfl
  | cons token tokens ih =>
    obtain ⟨now, v, later, ht, hrest, rfl⟩ := feed_cons_eq_ok h
    obtain ⟨hc, hn⟩ := transition_nest ht
    rw [outermost_cons hn, ← hc] at hr
    obtain ⟨hnow, hlater⟩ := hr.of_append
    refine feed_cons_of_ok (ht.over (fun _ => hf) ?_) (ih hrest hlater)
    intro hs
    rwa [if_pos ((opened_eq_nil_iff s.pending).mpr hs)] at hnow

end Calculator.Postfix
