import Calculator.Proofs.Grammar
import Calculator.Proofs.Groups

/-!
# Functions without parentheses

A function that no parenthesis follows waits below its argument. It stays there to the end of the
group, for it is no operator, and only a parenthesis that opens right above it would take it along
when it closes. None does: in an expression a parenthesis opens where an operand is expected, and
something waits there unless it is the first place. So the argument is all that is left of the
group.
-/

namespace Calculator

namespace Infix

open Postfix

/-- The phrases of each level, whatever they mean. A call has any number of arguments but none. -/
inductive Written : Level → List Token → Prop where
  | number (value : Float) : Written .atom [.number value]
  | unknown : Written .atom [.unknown]
  | parens {tokens : List Token} (inner : Written .equation tokens) :
    Written .atom (parenthesized tokens)
  | bars {tokens : List Token} (inner : Written .equation tokens) : Written .atom (barred tokens)
  | call (f : Builtin) {arguments : List (List Token)} (hn : arguments ≠ [])
      (h : ∀ a ∈ arguments, Written .equation a) :
    Written .atom (.function f :: parenthesized (separated arguments))
  | factorial {tokens : List Token} (operand : Written .factorial tokens) :
    Written .factorial (tokens ++ [.operator (.unary .factorial)])
  | binary (op : BinaryOperator) {tokens more : List Token}
      (left : Written (leftLevel op) tokens) (right : Written (rightLevel op) more) :
    Written (level op) (tokens ++ .operator (.binary op) :: more)
  | sign {op : BinaryOperator} (hop : op = .plus ∨ op = .minus) {tokens : List Token}
      (operand : Written .signed tokens) : Written .signed (.operator (.binary op) :: tokens)
  | looser {outer inner : Level} (h : inner.rank = outer.rank + 1) {tokens : List Token}
      (phrase : Written inner tokens) : Written outer tokens

theorem Written.of_rank_le {outer inner : Level} {tokens : List Token}
    (h : outer.rank ≤ inner.rank) (phrase : Written inner tokens) : Written outer tokens :=
  Level.of_rank_le (P := (Written · tokens)) (fun hr hp => .looser hr hp) h phrase

end Infix

namespace Postfix

open Infix

/-- The tokens lead from some open groups to others, and each parenthesis among them opens where an
operand is expected. -/
inductive Passes : Bool → List Delimiter → List Token → Bool → List Delimiter → Prop where
  | nil (completed : Bool) (groups : List Delimiter) : Passes completed groups [] completed groups
  | cons {completed final : Bool} {groups later last : List Delimiter} {token : Token}
      {tokens : List Token} (hn : nest completed groups token = some later)
      (hp : token = .operator .openParen → completed = false)
      (h : Passes (completes completed token) later tokens final last) :
    Passes completed groups (token :: tokens) final last

/-- No parenthesis is open below all else, nor does the next token open one there, or leave the
place free as a plus sign does. -/
structure Shielded (s : State) (tokens : List Token) : Prop where
  bottom : s.pending.getLast? ≠ some (.opening .paren)
  next : s.pending = [] → s.afterOperand = false →
    tokens.head? ≠ some (.operator .openParen) ∧ tokens.head? ≠ some (.operator (.binary .plus))

/-- What the tokens come to in any surroundings: after a parenthesis, or a comma in it, up to the
next comma or to the end, with the function that is called if there is one; and between bars. -/
structure Contributes (tokens p : List Token) : Prop where
  argument : ∀ pending, feed ⟨.opening .paren :: pending, false⟩ (tokens ++ [.operator .comma]) =
    .ok (p, ⟨.opening .paren :: pending, false⟩)
  lastArgument : ∀ g pending, feed ⟨.opening .paren :: .function g :: pending, false⟩
    (tokens ++ [.operator .closeParen]) = .ok (p ++ [.function g], ⟨pending, true⟩)
  parens : ∀ pending, (∀ g, pending.head? ≠ some (.function g)) →
    feed ⟨.opening .paren :: pending, false⟩ (tokens ++ [.operator .closeParen]) =
      .ok (p, ⟨pending, true⟩)
  bars : ∀ pending, feed ⟨.opening .bar :: pending, false⟩ (tokens ++ [.operator (.unary .bar)]) =
    .ok (p ++ [.operator (.unary .bar)], ⟨pending, true⟩)

variable {s u : State} {token : Token} {tokens more placed : List Token}
  {completed middle final : Bool} {groups later last : List Delimiter}

/-! ## Phrases open parentheses where an operand is expected -/

theorem Passes.append (h : Passes completed groups tokens middle later)
    (h' : Passes middle later more final last) :
    Passes completed groups (tokens ++ more) final last := by
  induction h with
  | nil completed groups => exact h'
  | cons hn hp h ih => exact .cons hn hp (ih h')

theorem passes_singleton (hn : nest completed groups token = some later)
    (hp : token = .operator .openParen → completed = false) :
    Passes completed groups [token] (completes completed token) later :=
  .cons hn hp (.nil _ _)

/-- In a parenthesis, arguments with commas between them are passed like one. -/
theorem passes_separated {arguments : List (List Token)} (hn : arguments ≠ [])
    (h : ∀ a ∈ arguments, ∀ groups, Passes false groups a true groups) :
    Passes false (.paren :: groups) (separated arguments) true (.paren :: groups) := by
  induction arguments with
  | nil => exact (hn rfl).elim
  | cons argument arguments ih =>
    obtain ⟨hfirst, hrest⟩ := List.forall_mem_cons.mp h
    cases arguments with
    | nil => simpa only [separated, List.intercalate_singleton] using hfirst (.paren :: groups)
    | cons next arguments =>
      have hcomma : nest true (.paren :: groups) (.operator .comma) = some (.paren :: groups) := by
        simp [nest]
      have hfresh : Token.operator .comma = .operator .openParen → true = false := by simp
      have hall := (hfirst (.paren :: groups)).append
        (.cons hcomma hfresh (ih (List.cons_ne_nil next arguments) hrest))
      simpa only [separated, List.intercalate_cons_cons, List.append_assoc,
        List.singleton_append] using hall

theorem passes_parenthesized (h : Passes false (.paren :: groups) tokens true (.paren :: groups)) :
    Passes false groups (parenthesized tokens) true groups := by
  have hclose : nest true (.paren :: groups) (.operator .closeParen) = some groups :=
    close_cons .paren groups
  exact .cons rfl (fun _ => rfl) (h.append (passes_singleton hclose nofun))

theorem passes_barred (h : Passes false (.bar :: groups) tokens true (.bar :: groups)) :
    Passes false groups (barred tokens) true groups := by
  have hclose : nest true (.bar :: groups) (.operator (.unary .bar)) = some groups :=
    close_cons .bar groups
  exact .cons rfl nofun (h.append (passes_singleton hclose nofun))

/-- A phrase is passed as an operand, and leaves the groups open that are open around it. -/
theorem passes_of_written {l : Infix.Level} (h : Written l tokens) (groups : List Delimiter) :
    Passes false groups tokens true groups := by
  induction h generalizing groups with
  | number value => exact passes_singleton rfl nofun
  | unknown => exact passes_singleton rfl nofun
  | parens inner ih => exact passes_parenthesized (ih _)
  | bars inner ih => exact passes_barred (ih _)
  | call f hn h ih =>
    exact .cons rfl nofun (passes_parenthesized (passes_separated hn ih))
  | factorial operand ih => exact (ih groups).append (passes_singleton rfl nofun)
  | binary op left right ihl ihr => exact (ihl groups).append (.cons rfl nofun (ihr groups))
  | sign hop operand ih => exact .cons rfl nofun (ih groups)
  | looser h phrase ih => exact ih groups

/-! ## Over a function -/

theorem getLast?_ne_of_append (above : List Pending) {below : List Pending} {p : Pending}
    (h : (above ++ below).getLast? ≠ some p) : below.getLast? ≠ some p := by
  intro hb
  apply h
  rw [List.getLast?_append, hb]
  rfl

theorem getLast?_cons_ne {pending : List Pending} {p q : Pending}
    (h : pending.getLast? ≠ some q) (hp : pending = [] → p ≠ q) :
    (p :: pending).getLast? ≠ some q := by
  cases pending with
  | nil => simpa using hp rfl
  | cons p' pending => rwa [List.getLast?_cons_cons]

/-- After the first token, something waits wherever an operand is expected. -/
theorem Transition.shielded (h : Transition s token placed u) (hs : Shielded s (token :: tokens))
    (hp : token = .operator .openParen → s.afterOperand = false) : Shielded u tokens := by
  obtain ⟨hbottom, hnext⟩ := hs
  cases h with
  | number value => exact ⟨hbottom, nofun⟩
  | unknown => exact ⟨hbottom, nofun⟩
  | function f => exact ⟨getLast?_cons_ne hbottom (by simp), nofun⟩
  | openParen =>
    refine ⟨getLast?_cons_ne hbottom fun hn => ?_, nofun⟩
    exact ((hnext hn (hp rfl)).1 rfl).elim
  | @closeCall above below f ha hs =>
    rw [hs] at hbottom
    exact ⟨getLast?_ne_of_append [_, _] (getLast?_ne_of_append above hbottom), nofun⟩
  | @closeParen above below ha hs hb =>
    rw [hs] at hbottom
    exact ⟨getLast?_ne_of_append [_] (getLast?_ne_of_append above hbottom), nofun⟩
  | @comma above below ha hs =>
    rw [hs] at hbottom
    exact ⟨getLast?_ne_of_append above hbottom, nofun⟩
  | @closeBar above below hc ha hs =>
    rw [hs] at hbottom
    exact ⟨getLast?_ne_of_append [_] (getLast?_ne_of_append above hbottom), nofun⟩
  | openBar hc => exact ⟨getLast?_cons_ne hbottom (by simp), nofun⟩
  | plus hc =>
    refine ⟨hbottom, fun hn => ?_⟩
    exact ((hnext hn hc).2 rfl).elim
  | sign hc hop => exact ⟨getLast?_cons_ne hbottom (by simp), nofun⟩
  | @operator op hop hc =>
    have hrest : (s.pending.dropWhile (·.precedes op)).getLast? ≠ some (.opening .paren) := by
      refine getLast?_ne_of_append (s.pending.takeWhile (·.precedes op)) ?_
      rwa [List.takeWhile_append_dropWhile]
    exact ⟨getLast?_cons_ne hrest (by simp), nofun⟩

/-- What is passed can be fed. -/
theorem feed_of_passes (h : Passes completed groups tokens final last)
    (hc : s.afterOperand = completed) (hg : opened s.pending = groups) :
    ∃ placed u, feed s tokens = .ok (placed, u) ∧ u.afterOperand = final ∧
      opened u.pending = last := by
  induction h generalizing s with
  | nil completed groups => exact ⟨[], s, rfl, hc, hg⟩
  | cons hn hp h ih =>
    subst hc hg
    obtain ⟨now, v, ht⟩ | ⟨-, d, hneeds, hd⟩ := exists_transition s _
    · obtain ⟨hv, hnest⟩ := transition_nest ht
      obtain ⟨placed, u, hf, hu⟩ := ih hv (Option.some.inj (hnest.symm.trans hn))
      exact ⟨now ++ placed, u, feed_cons_of_ok ht hf, hu⟩
    · cases hn.symm.trans (nest_of_needs hneeds hd)

/-- No operator makes a function leave, and no parenthesis calls it. -/
theorem feed_over_function (h : Passes completed groups tokens final last)
    (hc : s.afterOperand = completed) (hs : Shielded s tokens)
    (hf : feed s tokens = .ok (placed, u)) (f : Builtin) (base : List Pending) :
    feed (s.over (.function f :: base)) tokens = .ok (placed, u.over (.function f :: base)) := by
  induction h generalizing s placed with
  | nil completed groups =>
    cases hf
    rfl
  | @cons completed final groups later last token tokens hn hp h ih =>
    subst hc
    obtain ⟨now, v, later, ht, hrest, rfl⟩ := feed_cons_eq_ok hf
    have hrests : Rests (.function f :: base) [token] := by
      intro p hp op _
      cases hp
      rfl
    exact feed_cons_of_ok (ht.over (fun hb => (hs.bottom hb).elim) fun _ => hrests)
      (ih (transition_nest ht).1 (ht.shielded hs hp) hrest)

/-- The function stays below all that its argument leaves waiting. -/
theorem feed_bareCall (h : Written .equation tokens)
    (hparen : tokens.head? ≠ some (.operator .openParen))
    (hplus : tokens.head? ≠ some (.operator (.binary .plus))) :
    ∃ placed above, Closed above ∧ ofInfix tokens = .ok (placed ++ placedBy above) ∧
      ∀ f s, feed s (.function f :: tokens) =
        .ok (placed, ⟨above ++ .function f :: s.pending, true⟩) := by
  have hpasses := passes_of_written h []
  obtain ⟨placed, ⟨above, completed⟩, hf, rfl, hg⟩ := feed_of_passes (s := start) hpasses rfl rfl
  have hn : tokens ≠ [] := by
    rintro rfl
    cases hpasses
  have hclosed : Closed above := (opened_eq_nil_iff above).mp hg
  refine ⟨placed, above, hclosed, ofInfix_of_feed hn hf hclosed, fun f s => ?_⟩
  have hshielded : Shielded start tokens := ⟨nofun, fun _ _ => ⟨hparen, hplus⟩⟩
  exact feed_cons_of_ok (.function f) (feed_over_function hpasses rfl hshielded hf f s.pending)

/-! ## In all surroundings -/

/-- Whatever ends a group or an argument makes all leave that waits in it. -/
theorem contributes_of_feed (h : feed start tokens = .ok (placed, u)) (hclosed : Closed u.pending)
    (hu : u.afterOperand = true) : Contributes tokens (placed ++ placedBy u.pending) where
  argument pending :=
    feed_append_of_ok (feed_inside h .paren pending) (feed_singleton (.comma hclosed rfl))
  lastArgument g pending := by
    rw [List.append_assoc]
    exact feed_append_of_ok (feed_inside h .paren (.function g :: pending))
      (feed_singleton (.closeCall hclosed rfl))
  parens pending hp :=
    feed_append_of_ok (feed_inside h .paren pending) (feed_singleton (.closeParen hclosed rfl hp))
  bars pending := by
    rw [List.append_assoc]
    exact feed_append_of_ok (feed_inside h .bar pending)
      (feed_singleton (.closeBar hu hclosed rfl))

/-- A function in front of an expression that begins neither with a parenthesis nor with a plus sign
takes all of it as its argument, and so it does to the end of any group or argument. -/
theorem ofInfix_bareCall (h : Written .equation tokens)
    (hparen : tokens.head? ≠ some (.operator .openParen))
    (hplus : tokens.head? ≠ some (.operator (.binary .plus))) (f : Builtin) :
    ∃ p, ofInfix tokens = .ok p ∧ ofInfix (.function f :: tokens) = .ok (p ++ [.function f]) ∧
      Contributes (.function f :: tokens) (p ++ [.function f]) := by
  obtain ⟨placed, above, hclosed, hp, hf⟩ := feed_bareCall h hparen hplus
  have hend : Closed (above ++ [.function f]) := by
    intro p hm
    obtain hm | hm := List.mem_append.mp hm
    · exact hclosed p hm
    · cases List.mem_singleton.mp hm
      rfl
  have hplaced : placed ++ placedBy above ++ [.function f] =
      placed ++ placedBy (above ++ [.function f]) := by simp
  refine ⟨placed ++ placedBy above, hp, ?_, ?_⟩
  · rw [hplaced]
    exact ofInfix_of_feed (List.cons_ne_nil _ _) (hf f start) hend
  · rw [hplaced]
    exact contributes_of_feed (hf f start) hend rfl

/-- The statement above at `-sin(x, 2) = 1` behind `cos`. How many arguments a call has does not
matter. -/
theorem ofInfix_bareCall_equation :
    let tokens : List Token := [.operator (.binary .minus), .function .sin, .operator .openParen,
      .unknown, .operator .comma, .number 2, .operator .closeParen, .operator (.binary .equals),
      .number 1]
    let p : List Token := [.unknown, .number 2, .function .sin, .operator (.unary .negate),
      .number 1, .operator (.binary .equals)]
    Written .equation tokens ∧ tokens.head? ≠ some (.operator .openParen) ∧
      tokens.head? ≠ some (.operator (.binary .plus)) ∧ ofInfix tokens = .ok p ∧
      ofInfix (.function .cos :: tokens) = .ok (p ++ [.function .cos]) ∧
      Contributes (.function .cos :: tokens) (p ++ [.function .cos]) := by
  intro tokens p
  have harguments : ∀ a ∈ [[Token.unknown], [.number 2]], Written .equation a := by
    simp only [List.forall_mem_cons]
    exact ⟨.of_rank_le (by decide) .unknown, .of_rank_le (by decide) (.number 2), by simp⟩
  have hcall := Written.call .sin (List.cons_ne_nil _ _) harguments
  have hminus := Written.sign (.inr rfl) (hcall.of_rank_le (by decide))
  have h : Written .equation tokens := Written.binary .equals (hminus.of_rank_le (by decide))
    (.of_rank_le (by decide) (.number 1))
  have hparen : tokens.head? ≠ some (.operator .openParen) := by simp [tokens]
  have hplus : tokens.head? ≠ some (.operator (.binary .plus)) := by simp [tokens]
  obtain ⟨q, hq, hf, hcontributes⟩ := ofInfix_bareCall h hparen hplus .cos
  have hp : ofInfix tokens = .ok p := rfl
  cases hq.symm.trans hp
  exact ⟨h, hparen, hplus, hp, hf, hcontributes⟩

end Postfix

end Calculator
