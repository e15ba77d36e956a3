import Calculator.Proofs.Conversion
import Calculator.Proofs.Grammar

/-!
# Infix phrases convert to the postorder of their trees

A phrase is fed while other things wait. What waits may be anything that no operator of the
phrase makes leave; it stays where it is. The phrase places the beginning of the postorder of
its tree and leaves the rest waiting on top, in operators that bind at least as tightly as its
level does. An operator that follows the phrase makes just these leave.
-/

namespace Calculator.Infix

open Postfix

/-- The least precedence of an operator that a phrase of the level leaves waiting. -/
def Level.bound : Level → Nat
  | equation => 0
  | sum => 1
  | product => 2
  | signed | power => 3
  | factorial | atom => 4

theorem Level.bound_le {a b : Level} (h : a.rank ≤ b.rank) : a.bound ≤ b.bound := by
  cases a <;> cases b <;> simp_all [rank, bound]

/-- Only operators of precedence `n` or more. -/
def Binding (n : Nat) (waiting : List Pending) : Prop :=
  ∀ p ∈ waiting, ∃ op q, p = .operator op ∧ op.precedence = some q ∧ n ≤ q

/-- No operator of precedence `n` or more makes the top leave. -/
def Steady (n : Nat) (pending : List Pending) : Prop :=
  ∀ p ∈ pending.head?, ∀ op q, op.precedence = some q → n ≤ q → p.precedes op = false

/-- No function on the top that a parenthesis at the start of the tokens would call. -/
def Uncalled (pending : List Pending) (tokens : List Token) : Prop :=
  ∀ f, pending.head? = some (.function f) →
    tokens.head? ≠ some (.operator .openParen) ∧ tokens.head? ≠ some (.operator (.binary .plus))

/-- Fed over `pending`, the tokens place one part of the postorder of `t` and leave the other
waiting. -/
def Reads (n : Nat) (tokens : List Token) (t : Tree) (pending : List Pending) : Prop :=
  ∃ placed waiting, feed ⟨pending, false⟩ tokens = .ok (placed, ⟨waiting ++ pending, true⟩) ∧
    Binding n waiting ∧ placed ++ placedBy waiting = t.postorder

variable {n m : Nat} {pending waiting : List Pending}

theorem Binding.mono (h : n ≤ m) (hw : Binding m waiting) : Binding n waiting := by
  intro p hp
  obtain ⟨op, q, he, ho, hq⟩ := hw p hp
  exact ⟨op, q, he, ho, Nat.le_trans h hq⟩

theorem Binding.nil : Binding n [] := by
  intro p hp
  cases hp

/-- An operator below what waits waits too. -/
theorem Binding.concat (hw : Binding n waiting) {op : Operator} {q : Nat}
    (ho : op.precedence = some q) (hq : n ≤ q) : Binding n (waiting ++ [.operator op]) := by
  intro p hp
  obtain hp | hp := List.mem_append.mp hp
  · exact hw p hp
  · exact ⟨op, q, List.mem_singleton.mp hp, ho, hq⟩

theorem Binding.closed (hw : Binding n waiting) : Closed waiting := by
  intro p hp
  obtain ⟨op, q, rfl, -, -⟩ := hw p hp
  rfl

theorem Steady.mono (h : n ≤ m) (hs : Steady n pending) : Steady m pending := by
  intro p hp op q ho hq
  exact hs p hp op q ho (Nat.le_trans h hq)

theorem steady_nil : Steady n [] := by
  intro p hp
  cases hp

theorem steady_opening (d : Delimiter) : Steady n (.opening d :: pending) := by
  intro p hp op q ho hq
  cases hp
  rfl

theorem precedes_eq_true {left right : Operator} {p q : Nat} (hp : left.precedence = some p)
    (hq : right.precedence = some q) (h : q < p ∨ p = q ∧ right.isRightAssociative = false) :
    left.precedes right = true := by
  simp only [Operator.precedes, hp, hq]
  rcases h with h | ⟨h, hr⟩
  · simp [h]
  · simp [h, hr]

theorem precedes_eq_false {left right : Operator} {p q : Nat} (hp : left.precedence = some p)
    (hq : right.precedence = some q) (h : p < q ∨ p = q ∧ right.isRightAssociative = true) :
    left.precedes right = false := by
  simp only [Operator.precedes, hp, hq]
  rcases h with h | ⟨h, hr⟩
  · have hn : ¬ q < p := by omega
    have he : ¬ p = q := by omega
    simp [hn, he]
  · simp [h, hr]

/-- Signs and powers are the operators of precedence three, and both group to the right. -/
theorem isRightAssociative_of_precedence {op : Operator} (h : op.precedence = some 3) :
    op.isRightAssociative = true := by
  cases op with
  | unary op => cases op <;> simp_all [Operator.precedence, Operator.isRightAssociative]
  | binary op => cases op <;> simp_all [Operator.precedence, Operator.isRightAssociative]
  | openParen => cases h
  | closeParen => cases h
  | comma => cases h

theorem precedence_binary (op : BinaryOperator) :
    (Operator.binary op).precedence = some (level op).bound := by
  cases op <;> rfl

/-- Over an operator, its right operand is read without making it leave. -/
theorem steady_binary (op : BinaryOperator) :
    Steady (rightLevel op).bound (.operator (.binary op) :: pending) := by
  intro p hp next q ho hq
  cases hp
  by_cases hop : op = .power
  · subst op
    have h : 3 < q ∨ 3 = q := Nat.lt_or_eq_of_le hq
    refine precedes_eq_false (precedence_binary .power) ho ?_
    rcases h with h | h
    · exact .inl h
    · exact .inr ⟨h, isRightAssociative_of_precedence (h ▸ ho)⟩
  · have hl : (level op).bound < (rightLevel op).bound := by
      cases op <;> simp_all [level, rightLevel, Level.bound]
    exact precedes_eq_false (precedence_binary op) ho (.inl (Nat.lt_of_lt_of_le hl hq))

theorem steady_negate : Steady 3 (.operator (.unary .negate) :: pending) := by
  intro p hp next q ho hq
  cases hp
  have h : 3 < q ∨ 3 = q := Nat.lt_or_eq_of_le hq
  refine precedes_eq_false (p := 3) rfl ho ?_
  rcases h with h | h
  · exact .inl h
  · exact .inr ⟨h, isRightAssociative_of_precedence (h ▸ ho)⟩

/-- The operator after its left operand makes all leave that the operand left waiting. -/
theorem Binding.precedes_binary (op : BinaryOperator) (hw : Binding (leftLevel op).bound waiting) :
    ∀ p ∈ waiting, p.precedes (.binary op) = true := by
  intro p hp
  obtain ⟨left, r, rfl, ho, hr⟩ := hw p hp
  refine precedes_eq_true ho (precedence_binary op) ?_
  by_cases hop : op = .power
  · subst op
    exact .inl hr
  · have hl : leftLevel op = level op := by cases op <;> first | rfl | exact (hop rfl).elim
    have ha : (Operator.binary op).isRightAssociative = false := by
      cases op <;> first | rfl | exact (hop rfl).elim
    rw [hl] at hr
    obtain h | h := Nat.lt_or_eq_of_le hr
    · exact .inl h
    · exact .inr ⟨h.symm, ha⟩

theorem Binding.precedes_factorial (hw : Binding 4 waiting) :
    ∀ p ∈ waiting, p.precedes (.unary .factorial) = true := by
  intro p hp
  obtain ⟨left, r, rfl, ho, hr⟩ := hw p hp
  refine precedes_eq_true (q := 4) ho rfl ?_
  obtain h | h := Nat.lt_or_eq_of_le hr
  · exact .inl h
  · exact .inr ⟨h.symm, rfl⟩

/-- After an operand, an operator makes all leave that waits above `pending` and no more. -/
theorem transition_operator {op : Operator} {q : Nat} (ho : op.precedence = some q)
    (hw : ∀ p ∈ waiting, p.precedes op = true) (hs : Steady q pending) :
    Transition ⟨waiting ++ pending, true⟩ (.operator op) (placedBy waiting)
      ⟨.operator op :: pending, op == .unary .factorial⟩ := by
  have hp : pending.takeWhile (·.precedes op) = [] ∧
      pending.dropWhile (·.precedes op) = pending := by
    cases pending with
    | nil => exact ⟨rfl, rfl⟩
    | cons p pending =>
      have h : p.precedes op = false := hs p rfl op q ho (Nat.le_refl q)
      simp [h]
  have hop : op.precedence.isSome = true := by rw [ho, Option.isSome_some]
  have h := Transition.operator (s := ⟨waiting ++ pending, true⟩) hop (.inl rfl)
  rw [List.takeWhile_append_of_pos hw, List.dropWhile_append_of_pos hw, hp.1, hp.2,
    List.append_nil] at h
  exact h

variable {tokens more : List Token} {t : Tree}

theorem Uncalled.append (hn : tokens ≠ []) (h : Uncalled pending (tokens ++ more)) :
    Uncalled pending tokens := by
  intro f hf
  have hh : (tokens ++ more).head? = tokens.head? := by
    cases tokens with
    | nil => exact (hn rfl).elim
    | cons token tokens => rfl
  rw [← hh]
  exact h f hf

/-- Where the first token would turn a function on the top into a call, there is none. -/
theorem Uncalled.of_head {token : Token} (h : Uncalled pending (token :: tokens))
    (ht : token = .operator .openParen ∨ token = .operator (.binary .plus)) :
    ∀ f, pending.head? ≠ some (.function f) := by
  intro f hf
  obtain ⟨hp, hs⟩ := h f hf
  rcases ht with rfl | rfl
  · exact hp rfl
  · exact hs rfl

theorem uncalled_of_head_ne (h : ∀ f, pending.head? ≠ some (.function f))
    (tokens : List Token) : Uncalled pending tokens := by
  intro f hf
  exact (h f hf).elim

theorem uncalled_opening (d : Delimiter) (tokens : List Token) :
    Uncalled (.opening d :: pending) tokens := by
  intro f hf
  cases hf

theorem uncalled_operator (op : Operator) (tokens : List Token) :
    Uncalled (.operator op :: pending) tokens := by
  intro f hf
  cases hf

/-- What a number or the unknown does: it is placed at once, and nothing waits for it. -/
theorem reads_of_placed {token : Token} (n : Nat)
    (h : Transition ⟨pending, false⟩ token [token] ⟨pending, true⟩) (ht : t.postorder = [token]) :
    Reads n [token] t pending := by
  refine ⟨[token], [], feed_singleton h, Binding.nil, ?_⟩
  rw [placedBy_nil, List.append_nil, ht]

/-- Arguments with commas between them leave only the last one's operators waiting in the
parenthesis. -/
theorem feed_separated {α : Type} (items : List α) (parts : α → List Token) (trees : α → Tree)
    (h : ∀ a ∈ items, Reads 0 (parts a) (trees a) (.opening .paren :: pending))
    (hn : items ≠ []) :
    ∃ placed waiting,
      feed ⟨.opening .paren :: pending, false⟩ (separated (items.map parts)) =
        .ok (placed, ⟨waiting ++ .opening .paren :: pending, true⟩) ∧
      Binding 0 waiting ∧
      placed ++ placedBy waiting = items.flatMap fun a => (trees a).postorder := by
  induction items with
  | nil => exact (hn rfl).elim
  | cons a items ih =>
    obtain ⟨placed, waiting, hf, hw, hp⟩ := h a List.mem_cons_self
    cases items with
    | nil =>
      refine ⟨placed, waiting, ?_, hw, ?_⟩
      · simpa only [separated, List.map_cons, List.map_nil, List.intercalate_singleton] using hf
      · rw [hp, List.flatMap_cons, List.flatMap_nil, List.append_nil]
    | cons b items =>
      obtain ⟨later, last, hf', hw', hp'⟩ :=
        ih (fun c hc => h c (List.mem_cons_of_mem a hc)) (List.cons_ne_nil b items)
      have hcomma : Transition ⟨waiting ++ .opening .paren :: pending, true⟩ (.operator .comma)
          (placedBy waiting) ⟨.opening .paren :: pending, false⟩ := .comma hw.closed rfl
      have hall := feed_append_of_ok hf (feed_cons_of_ok hcomma hf')
      refine ⟨placed ++ (placedBy waiting ++ later), last, ?_, hw', ?_⟩
      · simpa only [separated, List.map_cons, List.intercalate_cons_cons, List.append_assoc,
          List.singleton_append] using hall
      · rw [List.flatMap_cons, ← hp, ← hp']
        simp only [List.append_assoc]

/-- A call reads its arguments in its parenthesis, which the function leaves with. -/
theorem reads_call (f : Builtin) {parts : Fin f.arity → List Token} {trees : Fin f.arity → Tree}
    (h : ∀ i, Reads 0 (parts i) (trees i) (.opening .paren :: .function f :: pending)) (n : Nat) :
    Reads n (.function f :: .operator .openParen ::
      (separated ((List.finRange f.arity).map parts) ++ [.operator .closeParen]))
      (.call f trees) pending := by
  have hn : List.finRange f.arity ≠ [] := by
    have hl := f.arity_pos
    rw [← List.length_finRange (n := f.arity)] at hl
    exact List.ne_nil_of_length_pos hl
  obtain ⟨placed, waiting, hf, hw, hp⟩ := feed_separated _ parts trees (fun i _ => h i) hn
  have hclose : Transition ⟨waiting ++ .opening .paren :: .function f :: pending, true⟩
      (.operator .closeParen) (placedBy waiting ++ [.function f]) ⟨pending, true⟩ :=
    .closeCall hw.closed rfl
  have hname : Transition ⟨pending, false⟩ (.function f) []
      ⟨.function f :: pending, false⟩ := .function f
  have hopen : Transition ⟨.function f :: pending, false⟩ (.operator .openParen) []
      ⟨.opening .paren :: .function f :: pending, false⟩ := .openParen
  have hall := feed_cons_of_ok hname
    (feed_cons_of_ok hopen (feed_append_of_ok hf (feed_singleton hclose)))
  refine ⟨placed ++ (placedBy waiting ++ [.function f]), [], hall, Binding.nil, ?_⟩
  rw [placedBy_nil, List.append_nil, ← List.append_assoc, hp]
  rfl

/-- A binary operator makes its left operand leave, and waits below its right one. -/
theorem reads_binary (op : BinaryOperator) {u : Tree} (hs : Steady (level op).bound pending)
    (left : Reads (leftLevel op).bound tokens t pending)
    (right : Reads (rightLevel op).bound more u (.operator (.binary op) :: pending)) :
    Reads (level op).bound (tokens ++ .operator (.binary op) :: more) (.binary op t u)
      pending := by
  have hr : (level op).bound ≤ (rightLevel op).bound := by cases op <;> decide
  obtain ⟨placed, waiting, hf, hw, hp⟩ := left
  have hop := transition_operator (precedence_binary op) (hw.precedes_binary op) hs
  have hfactorial : (Operator.binary op == .unary .factorial) = false := rfl
  rw [hfactorial] at hop
  obtain ⟨later, last, hf', hw', hp'⟩ := right
  refine ⟨placed ++ (placedBy waiting ++ later), last ++ [.operator (.binary op)], ?_, ?_, ?_⟩
  · rw [List.append_assoc]
    exact feed_append_of_ok hf (feed_cons_of_ok hop hf')
  · exact (hw'.mono hr).concat (precedence_binary op) (Nat.le_refl _)
  · calc placed ++ (placedBy waiting ++ later) ++ placedBy (last ++ [.operator (.binary op)])
        = placed ++ placedBy waiting ++ (later ++ placedBy last) ++ [.operator (.binary op)] := by
          simp
      _ = t.postorder ++ u.postorder ++ [.operator (.binary op)] := by rw [hp, hp']

/-- Every phrase is read over whatever its level leaves alone. -/
theorem reads_of_derives {l : Level} (h : Derives false l tokens t)
    (pending : List Pending) (hs : Steady l.bound pending) (hu : Uncalled pending tokens) :
    Reads l.bound tokens t pending := by
  induction h generalizing pending with
  | number value => exact reads_of_placed _ (.number value) rfl
  | unknown => exact reads_of_placed _ .unknown rfl
  | @parens tokens t inner ih =>
    have hb := hu.of_head (.inl rfl)
    obtain ⟨placed, waiting, hf, hw, hp⟩ :=
      ih (.opening .paren :: pending) (steady_opening _) (uncalled_opening _ _)
    have hclose : Transition ⟨waiting ++ .opening .paren :: pending, true⟩
        (.operator .closeParen) (placedBy waiting) ⟨pending, true⟩ :=
      .closeParen hw.closed rfl hb
    have hopen : Transition ⟨pending, false⟩ (.operator .openParen) []
        ⟨.opening .paren :: pending, false⟩ := .openParen
    have hall := feed_cons_of_ok hopen (feed_append_of_ok hf (feed_singleton hclose))
    refine ⟨placed ++ placedBy waiting, [], hall, Binding.nil, ?_⟩
    rw [placedBy_nil, List.append_nil, hp]
  | @bars tokens t inner ih =>
    obtain ⟨placed, waiting, hf, hw, hp⟩ :=
      ih (.opening .bar :: pending) (steady_opening _) (uncalled_opening _ _)
    have hclose : Transition ⟨waiting ++ .opening .bar :: pending, true⟩
        (.operator (.unary .bar)) (placedBy waiting ++ [.operator (.unary .bar)])
        ⟨pending, true⟩ := .closeBar rfl hw.closed rfl
    have hopen : Transition ⟨pending, false⟩ (.operator (.unary .bar)) []
        ⟨.opening .bar :: pending, false⟩ := .openBar rfl
    have hall := feed_cons_of_ok hopen (feed_append_of_ok hf (feed_singleton hclose))
    refine ⟨placed ++ (placedBy waiting ++ [.operator (.unary .bar)]), [], hall, Binding.nil, ?_⟩
    rw [placedBy_nil, List.append_nil, ← List.append_assoc, hp]
    rfl
  | call f arguments ih =>
    refine reads_call f ?_ _
    intro i
    exact ih i _ (steady_opening _) (uncalled_opening _ _)
  | @factorial tokens t operand ih =>
    obtain ⟨placed, waiting, hf, hw, hp⟩ := ih pending hs (hu.append operand.ne_nil)
    have hop := transition_operator (q := 4) rfl hw.precedes_factorial hs
    refine ⟨placed ++ placedBy waiting, [.operator (.unary .factorial)],
      feed_append_of_ok hf (feed_singleton hop), ?_, ?_⟩
    · exact Binding.nil.concat rfl (Nat.le_refl 4)
    · rw [hp]
      rfl
  | @binary op tokens more t u left right ihl ihr =>
    have hl : (level op).bound ≤ (leftLevel op).bound := by cases op <;> decide
    exact reads_binary op hs (ihl pending (hs.mono hl) (hu.append left.ne_nil))
      (ihr _ (steady_binary op) (uncalled_operator _ _))
  | @minus tokens t operand ih =>
    obtain ⟨placed, waiting, hf, hw, hp⟩ :=
      ih (.operator (.unary .negate) :: pending) steady_negate (uncalled_operator _ _)
    refine ⟨placed, waiting ++ [.operator (.unary .negate)], ?_, ?_, ?_⟩
    · rw [List.append_assoc]
      exact feed_cons_of_ok (.sign rfl (.inl rfl)) hf
    · exact hw.concat (q := 3) rfl (Nat.le_refl 3)
    · rw [placedBy_append, ← List.append_assoc, hp]
      rfl
  | @plus tokens t operand ih =>
    have hb := hu.of_head (.inr rfl)
    obtain ⟨placed, waiting, hf, hw, hp⟩ := ih pending hs (uncalled_of_head_ne hb tokens)
    exact ⟨placed, waiting, feed_cons_of_ok (.plus rfl) hf, hw, hp⟩
  | bareCall hb => cases hb
  | @looser outer inner h tokens t phrase ih =>
    have hb : outer.bound ≤ inner.bound := Level.bound_le (by omega)
    obtain ⟨placed, waiting, hf, hw, hp⟩ := ih pending (hs.mono hb) hu
    exact ⟨placed, waiting, hf, hw.mono hb, hp⟩

/-- Every derivable list converts, and to the postorder of the tree that it derives. -/
theorem ofInfix_of_derives (h : Derives false .equation tokens t) :
    ofInfix tokens = .ok t.postorder := by
  have hu : Uncalled [] tokens := by
    intro f hf
    cases hf
  obtain ⟨placed, waiting, hf, hw, hp⟩ := reads_of_derives h [] steady_nil hu
  rw [List.append_nil] at hf
  rw [ofInfix_of_feed h.ne_nil hf hw.closed]
  exact congrArg Except.ok hp

/-- The statement above at `-x ^ 2 = nPr(3, |x|)`. -/
theorem ofInfix_of_derives_equation :
    let tokens : List Token := [.operator (.binary .minus), .unknown, .operator (.binary .power),
      .number 2, .operator (.binary .equals), .function .nPr, .operator .openParen, .number 3,
      .operator .comma, .operator (.unary .bar), .unknown, .operator (.unary .bar),
      .operator .closeParen]
    ∃ t, Derives false .equation tokens t ∧ ofInfix tokens = .ok t.postorder ∧
      t.postorder = [.unknown, .number 2, .operator (.binary .power),
        .operator (.unary .negate), .number 3, .unknown, .operator (.unary .bar), .function .nPr,
        .operator (.binary .equals)] := by
  have hx : Derives false .atom [.unknown] .unknown := .unknown
  have hpower := Derives.binary .power (.looser rfl hx) (.of_rank_le (by decide) (.number 2))
  have hminus := Derives.minus (.looser rfl hpower)
  have hbars := Derives.bars (hx.of_rank_le (by decide))
  have harguments : ∀ i : Fin Builtin.nPr.arity, Derives false .equation
      (if i.val = 0 then [.number 3]
        else [.operator (.unary .bar), .unknown, .operator (.unary .bar)])
      (if i.val = 0 then .number 3 else .unary .bar .unknown) := by
    intro i
    split
    · exact .of_rank_le (by decide) (.number 3)
    · exact hbars.of_rank_le (by decide)
  have h := Derives.binary .equals (hminus.of_rank_le (by decide))
    (.of_rank_le (by decide) (.call .nPr harguments))
  exact ⟨_, h, ofInfix_of_derives h, rfl⟩

end Calculator.Infix
