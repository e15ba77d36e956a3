import Calculator.Proofs.Frame

/-!
# Groups

What stands in a group is converted as if it stood alone, whatever waits outside. The end of the
group makes all leave that waits in it, and a parenthesis the function that it calls as well. All
else that waits outside stays, so a group is to its surroundings what an operand is.
-/

namespace Calculator.Postfix

/-- The tokens in parentheses. -/
def parenthesized (tokens : List Token) : List Token :=
  .operator .openParen :: (tokens ++ [.operator .closeParen])

/-- The tokens between bars. -/
def barred (tokens : List Token) : List Token :=
  .operator (.unary .bar) :: (tokens ++ [.operator (.unary .bar)])

/-- The tokens end with a complete operand. -/
def EndsComplete (tokens : List Token) : Prop :=
  ∃ placed s, feed start tokens = .ok (placed, s) ∧ s.afterOperand = true

variable {s u v : State} {opening closing : Token} {tokens p placed later : List Token}

/-- What opens a group comes to rest below the tokens in it, which nothing in the group makes
leave and which is no function. -/
theorem feed_inside (h : feed start tokens = .ok (placed, u)) (d : Delimiter)
    (pending : List Pending) :
    feed ⟨.opening d :: pending, false⟩ tokens =
      .ok (placed, ⟨u.pending ++ .opening d :: pending, u.afterOperand⟩) := by
  refine feed_over h (by simp) ?_
  intro q hq op hm
  cases hq
  rfl

/-- A group is fed as what it opens with, what it holds and what it closes with. -/
theorem feed_enclosed (ho : Transition s opening [] u) (h : feed u tokens = .ok (placed, v))
    {t : State} (hc : Transition v closing later t) :
    feed s (opening :: (tokens ++ [closing])) = .ok (placed ++ later, t) := by
  have hrest := feed_append_of_ok h (feed_singleton hc)
  simpa using feed_cons_of_ok ho hrest

/-- A group is opaque to its surroundings. In any state a parenthesized group places what its
tokens do alone, and leaves what waits as it was, except that a function on top leaves right after
them. Bars that open where an operand is expected, and close where one is complete, do the same
without regard to functions, and place their own sign. -/
theorem feed_group (h : ofInfix tokens = .ok p) (s : State) :
    (∀ f below, s.pending = .function f :: below →
      feed s (parenthesized tokens) = .ok (p ++ [.function f], ⟨below, true⟩)) ∧
    ((∀ f, s.pending.head? ≠ some (.function f)) →
      feed s (parenthesized tokens) = .ok (p, ⟨s.pending, true⟩)) ∧
    (s.afterOperand = false → EndsComplete tokens →
      feed s (barred tokens) =
        .ok (p ++ [.operator (.unary .bar)], ⟨s.pending, true⟩)) := by
  obtain ⟨placed, u, hf, hclosed, rfl⟩ := feed_of_ofInfix h
  have hparen := feed_inside hf .paren s.pending
  refine ⟨?_, ?_, ?_⟩
  · intro f below hs
    have hcall := feed_enclosed .openParen hparen
      (.closeCall hclosed (congrArg (u.pending ++ .opening .paren :: ·) hs))
    rwa [← List.append_assoc] at hcall
  · intro hs
    exact feed_enclosed .openParen hparen (.closeParen hclosed rfl hs)
  · intro hc he
    obtain ⟨placed', u', hf', hu⟩ := he
    cases hf.symm.trans hf'
    rw [List.append_assoc]
    exact feed_enclosed (.openBar hc) (feed_inside hf .bar s.pending) (.closeBar hu hclosed rfl)

/-- The statement above for `1 + x` after `2 * -sin`, after `2 *`, and between bars. -/
theorem feed_group_sum :
    let sum : List Token := [.number 1, .operator (.binary .plus), .unknown]
    let out : List Token := [.number 1, .unknown, .operator (.binary .plus)]
    let times : Pending := .operator (.binary .times)
    let negate : Pending := .operator (.unary .negate)
    ofInfix sum = .ok out ∧ EndsComplete sum ∧
      feed ⟨[.function .sin, negate, times], false⟩ (parenthesized sum) =
        .ok (out ++ [.function .sin], ⟨[negate, times], true⟩) ∧
      feed ⟨[times], false⟩ (parenthesized sum) = .ok (out, ⟨[times], true⟩) ∧
      feed ⟨[times], false⟩ (barred sum) =
        .ok (out ++ [.operator (.unary .bar)], ⟨[times], true⟩) := by
  intro sum out times negate
  have h : ofInfix sum = .ok out := rfl
  have he : EndsComplete sum := ⟨_, _, rfl, rfl⟩
  refine ⟨h, he, (feed_group h _).1 .sin _ rfl, ?_, ?_⟩
  · exact (feed_group h ⟨[times], false⟩).2.1 (by simp [times])
  · exact (feed_group h ⟨[times], false⟩).2.2 rfl he

end Calculator.Postfix
