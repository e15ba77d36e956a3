import Calculator.Proofs.Tree

/-!
# The grammar of infix expressions

Phrases come in seven levels. A binary operator joins phrases of the levels set down for it,
which is how it binds more or less tightly and groups to one side. Signs stand in front of
powers, factorials behind atoms, and an atom is a number, the unknown, a group or a call with
as many arguments as the function takes.

A bare call, a function in front of an expression without parentheses of its own, is a phrase
of the wider grammar only. That grammar says neither how far the argument reaches nor whether
one argument is enough.
-/

namespace Calculator.Infix

/-- The levels, from the loosest phrases to the tightest. -/
inductive Level where
  | equation | sum | product | signed | power | factorial | atom
  deriving DecidableEq, Repr

def Level.rank : Level → Nat
  | equation => 0
  | sum => 1
  | product => 2
  | signed => 3
  | power => 4
  | factorial => 5
  | atom => 6

theorem Level.rank_inj {a b : Level} (h : a.rank = b.rank) : a = b := by
  cases a <;> cases b <;> simp_all [rank]

/-- What holds of the next looser level as well holds of all looser ones. -/
theorem Level.of_rank_le {P : Level → Prop}
    (hP : ∀ {outer inner : Level}, inner.rank = outer.rank + 1 → P inner → P outer)
    {outer inner : Level} (h : outer.rank ≤ inner.rank) (hi : P inner) : P outer := by
  obtain ⟨n, hn⟩ := Nat.exists_eq_add_of_le h
  induction n generalizing outer with
  | zero =>
    rw [Level.rank_inj hn] at hi
    exact hi
  | succ n ih =>
    have hm : ∃ middle : Level, middle.rank = outer.rank + 1 := by
      have hlast : inner.rank ≤ 6 := by cases inner <;> decide
      cases outer with
      | equation => exact ⟨.sum, rfl⟩
      | sum => exact ⟨.product, rfl⟩
      | product => exact ⟨.signed, rfl⟩
      | signed => exact ⟨.power, rfl⟩
      | power => exact ⟨.factorial, rfl⟩
      | factorial => exact ⟨.atom, rfl⟩
      | atom =>
        have ha : Level.atom.rank = 6 := rfl
        omega
    obtain ⟨middle, hr⟩ := hm
    exact hP hr (ih (by omega) (by omega))

/-- The level of the phrases that the operator makes. -/
def level : BinaryOperator → Level
  | .equals => .equation
  | .plus | .minus => .sum
  | .times | .divide | .modulo => .product
  | .power => .power

/-- The level of its left operand. All but powers group to the left. -/
def leftLevel : BinaryOperator → Level
  | .power => .factorial
  | op => level op

/-- The level of its right operand. -/
def rightLevel : BinaryOperator → Level
  | .equals => .sum
  | .plus | .minus => .product
  | .times | .divide | .modulo | .power => .signed

/-- The parts in a row with a comma between neighbours. -/
def separated (parts : List (List Token)) : List Token :=
  [Token.operator .comma].intercalate parts

/-- The phrases of each level, with the tree that each stands for. Bare calls are phrases only
where `bare` is true. -/
inductive Derives (bare : Bool) : Level → List Token → Tree → Prop where
  | number (value : Float) : Derives bare .atom [.number value] (.number value)
  | unknown : Derives bare .atom [.unknown] .unknown
  | parens {tokens : List Token} {t : Tree} (inner : Derives bare .equation tokens t) :
    Derives bare .atom (.operator .openParen :: (tokens ++ [.operator .closeParen])) t
  | bars {tokens : List Token} {t : Tree} (inner : Derives bare .equation tokens t) :
    Derives bare .atom (.operator (.unary .bar) :: (tokens ++ [.operator (.unary .bar)]))
      (.unary .bar t)
  | call (f : Builtin) {parts : Fin f.arity → List Token} {trees : Fin f.arity → Tree}
      (arguments : ∀ i, Derives bare .equation (parts i) (trees i)) :
    Derives bare .atom
      (.function f :: .operator .openParen ::
        (separated ((List.finRange f.arity).map parts) ++ [.operator .closeParen]))
      (.call f trees)
  | factorial {tokens : List Token} {t : Tree} (operand : Derives bare .factorial tokens t) :
    Derives bare .factorial (tokens ++ [.operator (.unary .factorial)]) (.unary .factorial t)
  | binary (op : BinaryOperator) {tokens more : List Token} {t u : Tree}
      (left : Derives bare (leftLevel op) tokens t)
      (right : Derives bare (rightLevel op) more u) :
    Derives bare (level op) (tokens ++ .operator (.binary op) :: more) (.binary op t u)
  | minus {tokens : List Token} {t : Tree} (operand : Derives bare .signed tokens t) :
    Derives bare .signed (.operator (.binary .minus) :: tokens) (.unary .negate t)
  | plus {tokens : List Token} {t : Tree} (operand : Derives bare .signed tokens t) :
    Derives bare .signed (.operator (.binary .plus) :: tokens) t
  | bareCall (hb : bare = true) (f : Builtin) {tokens : List Token} {t : Tree}
      (argument : Derives bare .equation tokens t) :
    Derives bare .signed (.function f :: tokens) (.call f fun _ => t)
  | looser {outer inner : Level} (h : inner.rank = outer.rank + 1) {tokens : List Token}
      {t : Tree} (phrase : Derives bare inner tokens t) : Derives bare outer tokens t

variable {bare : Bool} {tokens : List Token} {t : Tree}

/-- A phrase is also one of every looser level. -/
theorem Derives.of_rank_le {outer inner : Level} (h : outer.rank ≤ inner.rank)
    (phrase : Derives bare inner tokens t) : Derives bare outer tokens t :=
  Level.of_rank_le (P := (Derives bare · tokens t)) (fun hr hp => .looser hr hp) h phrase

theorem Derives.ne_nil {l : Level} (h : Derives bare l tokens t) : tokens ≠ [] := by
  induction h with
  | looser h phrase ih => exact ih
  | _ => simp

/-- What goes in front of phrases of one level goes in front of looser phrases as well, where
it joins the first of the tighter phrases that they are made of. -/
theorem Derives.exists_append {front : List Token} {made taken l : Level}
    (hle : made.rank ≤ taken.rank) (hnext : taken.rank ≤ made.rank + 1)
    (hsigned : taken.rank ≤ Level.signed.rank)
    (hfront : ∀ {tokens : List Token} {t : Tree}, Derives bare taken tokens t →
      ∃ u, Derives bare made (front ++ tokens) u)
    (h : Derives bare l tokens t) (hl : l.rank ≤ made.rank) :
    ∃ u, Derives bare l (front ++ tokens) u := by
  have hdirect : ∀ {l : Level} {tokens : List Token} {t : Tree}, taken.rank ≤ l.rank →
      l.rank ≤ made.rank → Derives bare l tokens t →
      ∃ u, Derives bare l (front ++ tokens) u := by
    intro l tokens t ht hm phrase
    have hmade : l = made := Level.rank_inj (by omega)
    have htaken : l = taken := Level.rank_inj (by omega)
    rw [htaken] at phrase
    rw [hmade]
    exact hfront phrase
  have hatom : Level.signed.rank < Level.atom.rank := by decide
  have hfactorial : Level.signed.rank < Level.factorial.rank := by decide
  induction h with
  | number | unknown | parens | bars | call | factorial => omega
  | minus operand => exact hdirect hsigned hl (.minus operand)
  | plus operand => exact hdirect hsigned hl (.plus operand)
  | bareCall hb f argument => exact hdirect hsigned hl (.bareCall hb f argument)
  | @binary op tokens more t u left right ihl ihr =>
    have hleft : leftLevel op = level op := by
      cases op <;> first | rfl | exact absurd (Nat.le_trans hl (Nat.le_trans hle hsigned)) (by decide)
    rw [hleft] at ihl
    obtain ⟨v, hv⟩ := ihl hl
    have hwhole := Derives.binary op (by rw [hleft]; exact hv) right
    rw [List.append_assoc] at hwhole
    exact ⟨_, hwhole⟩
  | @looser outer inner h tokens t phrase ih =>
    by_cases hi : inner.rank ≤ made.rank
    · obtain ⟨u, hu⟩ := ih hi
      exact ⟨u, .looser h hu⟩
    · by_cases ho : taken.rank ≤ outer.rank
      · exact hdirect ho hl (.looser h phrase)
      · have hmade : outer = made := Level.rank_inj (by omega)
        have htaken : inner = taken := Level.rank_inj (by omega)
        rw [htaken] at phrase
        rw [hmade]
        exact hfront phrase

end Calculator.Infix
