import Calculator.Proofs.Outline

/-!
# How far the count of values is a check of syntax

Nothing checks the syntax of a list: operands may stand side by side, and a call may take an
argument from outside its parentheses. Only the values that the converted list leaves are
counted. Where one is left, the list is an expression of the wider grammar exactly when it is
orderly.

An orderly list is read with what can stand before the rest of it: the beginnings of the open
groups and of the calls they belong to. Every token either goes on with them or shows, by a
score that it raises by more than its own weight, that an operand is missing; a score once
gained is never lost, so then the list leaves less than one value.
-/

namespace Calculator.Infix

open Postfix

/-! ## The beginnings of phrases -/

/-- An expression of the wider grammar. -/
def Phrase (tokens : List Token) : Prop := ∃ t, Derives true .equation tokens t

/-- An expression of it that every operator can follow. -/
def Operand (tokens : List Token) : Prop := ∃ t, Derives true .factorial tokens t

/-- With any expression behind it, an expression. -/
def Leads (front : List Token) : Prop := ∀ tokens, Phrase tokens → Phrase (front ++ tokens)

/-- What stands before the part of a group that is still to hold so many commas. -/
inductive Opening : Delimiter × Nat → List Token → Prop where
  | bar : Opening (.bar, 0) [.operator (.unary .bar)]
  | paren : Opening (.paren, 0) [.operator .openParen]
  | call (f : Builtin) {n : Nat} {arguments : List (List Token)}
      (ha : ∀ a ∈ arguments, Phrase a) (hn : arguments.length + (n + 1) = f.arity) :
    Opening (.paren, n)
      (.function f :: .operator .openParen :: arguments.flatMap (· ++ [.operator .comma]))

/-- What stands before an expression in the innermost of the open groups. -/
inductive Awaits : List (Delimiter × Nat) → List Token → Prop where
  | outermost {front : List Token} (hf : Leads front) : Awaits [] front
  | inside {group : Delimiter × Nat} {groups : List (Delimiter × Nat)}
      {outer opening front : List Token} (ho : Awaits groups outer) (hg : Opening group opening)
      (hf : Leads front) : Awaits (group :: groups) (outer ++ (opening ++ front))

/-- What has been read, if no operand is missing in it. -/
inductive Begins : Outline → List Token → Prop where
  | awaiting {groups : List (Delimiter × Nat)} {before : List Token}
      (h : Awaits groups before) : Begins ⟨groups, 0, false⟩ before
  | calling {groups : List (Delimiter × Nat)} {before : List Token} (h : Awaits groups before)
      {f : Builtin} {n : Nat} (hf : f.arity = n + 2) :
    Begins ⟨groups, n + 1, false⟩ (before ++ [.function f])
  | completed {groups : List (Delimiter × Nat)} {before operand : List Token}
      (h : Awaits groups before) (ho : Operand operand) :
    Begins ⟨groups, 0, true⟩ (before ++ operand)

variable {o o' : Outline} {token : Token} {tokens : List Token}

theorem Operand.phrase (h : Operand tokens) : Phrase tokens := by
  obtain ⟨t, ht⟩ := h
  exact ⟨t, ht.of_rank_le (by decide)⟩

theorem operand_of_atom {t : Tree} (h : Derives true .atom tokens t) : Operand tokens :=
  ⟨t, .looser rfl h⟩

theorem leads_nil : Leads [] := by
  intro tokens h
  exact h

theorem Leads.append {front more : List Token} (h : Leads front) (h' : Leads more) :
    Leads (front ++ more) := by
  intro tokens ht
  rw [List.append_assoc]
  exact h _ (h' tokens ht)

/-- Signs and bare functions stand in front of any expression. -/
theorem leads_minus : Leads [.operator (.binary .minus)] := by
  intro tokens ⟨t, ht⟩
  exact ht.exists_append (Nat.le_refl Level.signed.rank) (by decide) (Nat.le_refl _)
    (fun operand => ⟨_, .minus operand⟩) (by decide)

theorem leads_plus : Leads [.operator (.binary .plus)] := by
  intro tokens ⟨t, ht⟩
  exact ht.exists_append (Nat.le_refl Level.signed.rank) (by decide) (Nat.le_refl _)
    (fun operand => ⟨_, .plus operand⟩) (by decide)

theorem leads_function (f : Builtin) : Leads [.function f] := by
  intro tokens ⟨t, ht⟩
  exact ⟨_, (Derives.bareCall rfl f ht).of_rank_le (by decide)⟩

/-- So does an operator behind its left operand, which takes what it can from the front. -/
theorem leads_binary (op : BinaryOperator) (h : Operand tokens) :
    Leads (tokens ++ [.operator (.binary op)]) := by
  intro more ⟨u, hu⟩
  obtain ⟨t, ht⟩ := h
  obtain ⟨made, hle, hnext, hmade⟩ : ∃ made : Level, made.rank ≤ (rightLevel op).rank ∧
      (rightLevel op).rank ≤ made.rank + 1 ∧ made.rank ≤ (level op).rank := by
    by_cases hop : op = .power
    · subst op
      exact ⟨.signed, by decide, by decide, by decide⟩
    · refine ⟨level op, ?_⟩
      cases op <;> first | decide | exact (hop rfl).elim
  have hleft : (leftLevel op).rank ≤ Level.factorial.rank := by cases op <;> decide
  have hsigned : (rightLevel op).rank ≤ Level.signed.rank := by cases op <;> decide
  refine hu.exists_append hle hnext hsigned ?_ (Nat.zero_le made.rank)
  intro tokens' v right
  have hwhole := Derives.binary op (ht.of_rank_le hleft) right
  rw [List.append_cons] at hwhole
  exact ⟨_, hwhole.of_rank_le hmade⟩

theorem Awaits.append {groups : List (Delimiter × Nat)} {before more : List Token}
    (h : Awaits groups before) (hm : Leads more) : Awaits groups (before ++ more) := by
  cases h with
  | outermost hf => exact .outermost (hf.append hm)
  | inside ho hg hf =>
    rw [List.append_assoc, List.append_assoc]
    exact .inside ho hg (hf.append hm)

/-- The last part has no comma behind it. -/
theorem separated_concat (parts : List (List Token)) (last : List Token) :
    separated (parts ++ [last]) = parts.flatMap (· ++ [.operator .comma]) ++ last := by
  induction parts with
  | nil => exact List.intercalate_singleton
  | cons part parts ih =>
    have hn : parts ++ [last] ≠ [] := by simp
    rw [separated] at ih
    rw [separated, List.cons_append, List.intercalate_cons_of_ne_nil hn, ih, List.flatMap_cons]
    simp

/-- A function with as many arguments as it takes is an operand. -/
theorem operand_of_arguments (f : Builtin) {arguments : List (List Token)}
    (ha : ∀ a ∈ arguments, Phrase a) (hn : arguments.length = f.arity) :
    Operand (.function f :: .operator .openParen ::
      (separated arguments ++ [.operator .closeParen])) := by
  have hp : ∀ i : Fin f.arity, Phrase (arguments.get (i.cast hn.symm)) := by
    intro i
    exact ha _ (List.get_mem arguments _)
  have hcall := operand_of_atom (.call f fun i => Classical.choose_spec (hp i))
  rw [map_get_finRange arguments hn] at hcall
  exact hcall

/-- A group that holds no more commas is an operand once an expression is read in it. -/
theorem operand_of_closeParen {opening inner : List Token} (hg : Opening (.paren, 0) opening)
    (hi : Phrase inner) : Operand (opening ++ (inner ++ [.operator .closeParen])) := by
  cases hg with
  | paren =>
    obtain ⟨t, ht⟩ := hi
    exact operand_of_atom (.parens ht)
  | @call f n arguments ha hn =>
    have hall : ∀ a ∈ arguments ++ [inner], Phrase a :=
      List.forall_mem_append.mpr ⟨ha, List.forall_mem_singleton.mpr hi⟩
    have hlen : (arguments ++ [inner]).length = f.arity := by
      rw [List.length_append, List.length_singleton]
      exact hn
    have hcall := operand_of_arguments f hall hlen
    rw [separated_concat, List.append_assoc] at hcall
    exact hcall

theorem operand_of_closeBar {opening inner : List Token} (hg : Opening (.bar, 0) opening)
    (hi : Phrase inner) : Operand (opening ++ (inner ++ [.operator (.unary .bar)])) := by
  cases hg
  obtain ⟨t, ht⟩ := hi
  exact operand_of_atom (.bars ht)

/-- A comma ends an argument. -/
theorem opening_of_comma {n : Nat} {opening inner : List Token}
    (hg : Opening (.paren, n + 1) opening) (hi : Phrase inner) :
    Opening (.paren, n) (opening ++ (inner ++ [.operator .comma])) := by
  cases hg with
  | @call f n arguments ha hn =>
    have hall : ∀ a ∈ arguments ++ [inner], Phrase a :=
      List.forall_mem_append.mpr ⟨ha, List.forall_mem_singleton.mpr hi⟩
    have hlen : (arguments ++ [inner]).length + (n + 1) = f.arity := by
      rw [List.length_append, List.length_singleton]
      omega
    have hcall := Opening.call f hall hlen
    rw [List.flatMap_append, List.flatMap_singleton] at hcall
    exact hcall

/-- Where an operand is expected, a token that is not waiting for one goes on with the phrase. -/
theorem begins_of_awaiting {groups : List (Delimiter × Nat)} {before : List Token}
    (h : Outline.Reading ⟨groups, 0, false⟩ token o')
    (hs : o'.score - Outline.score ⟨groups, 0, false⟩ ≤ total (contribution false token))
    (ha : Awaits groups before) : Begins o' (before ++ [token]) := by
  cases h with
  | number hc value => exact .completed ha (operand_of_atom (.number value))
  | unknown hc => exact .completed ha (operand_of_atom .unknown)
  | function hc f =>
    have hpos := f.arity_pos
    by_cases hf : f.arity = 1
    · rw [hf]
      exact .awaiting (ha.append (leads_function f))
    · obtain ⟨n, hn⟩ := Nat.exists_eq_add_of_le' (show 2 ≤ f.arity by omega)
      rw [hn]
      exact .calling ha hn
  | openParen hc =>
    have hopen := Awaits.inside ha .paren leads_nil
    exact .awaiting hopen
  | closeParen hg =>
    cases hg
    simp only [contribution, total_nil, Outline.score_completed, Outline.score_awaiting,
      Outline.due_cons] at hs
    omega
  | comma hg =>
    cases hg
    simp only [contribution, total_nil, Outline.score_awaiting, Outline.due_cons] at hs
    omega
  | closeBar hc hg => cases hc
  | openBar hc =>
    have hopen := Awaits.inside ha .bar leads_nil
    exact .awaiting hopen
  | factorial =>
    simp only [contribution, total_cons, total_nil, Token.weight_unary, Outline.score_completed,
      Outline.score_awaiting] at hs
    omega
  | binary op =>
    cases op with
    | plus => exact .awaiting (ha.append leads_plus)
    | minus => exact .awaiting (ha.append leads_minus)
    | _ =>
      simp only [contribution, total_cons, total_nil, Token.weight_binary,
        Outline.score_awaiting] at hs
      omega

/-- Behind a function of several arguments, only its parenthesis does not raise the score by
more than its weight. -/
theorem eq_openParen_of_calling {groups : List (Delimiter × Nat)} {n : Nat}
    (h : Outline.Reading ⟨groups, n + 1, false⟩ token o')
    (hs : o'.score - Outline.score ⟨groups, n + 1, false⟩ ≤ total (contribution false token)) :
    token = .operator .openParen ∧ o' = ⟨(.paren, n + 1) :: groups, 0, false⟩ := by
  cases h with
  | openParen hc => exact ⟨rfl, rfl⟩
  | number hc value =>
    simp only [contribution, total_cons, total_nil, Token.weight_number, Outline.score_completed,
      Outline.score_awaiting] at hs
    omega
  | unknown hc =>
    simp only [contribution, total_cons, total_nil, Token.weight_unknown, Outline.score_completed,
      Outline.score_awaiting] at hs
    omega
  | function hc f =>
    have hpos := f.arity_pos
    simp only [contribution, total_cons, total_nil, Token.weight_function,
      Outline.score_awaiting] at hs
    omega
  | closeParen hg =>
    cases hg
    simp only [contribution, total_nil, Outline.score_completed, Outline.score_awaiting,
      Outline.due_cons] at hs
    omega
  | comma hg =>
    cases hg
    simp only [contribution, total_nil, Outline.score_awaiting, Outline.due_cons] at hs
    omega
  | closeBar hc hg => cases hc
  | openBar hc =>
    simp only [contribution, Bool.false_eq_true, if_false, total_nil, Outline.score_awaiting,
      Outline.due_cons] at hs
    omega
  | factorial =>
    simp only [contribution, total_cons, total_nil, Token.weight_unary, Outline.score_completed,
      Outline.score_awaiting] at hs
    omega
  | binary op =>
    have hop := total_contribution_binary_le op
    simp only [Outline.score_awaiting] at hs
    omega

/-- Behind a complete operand, every token that can be read goes on with the phrase. -/
theorem begins_of_completed {groups : List (Delimiter × Nat)} {before operand : List Token}
    (h : Outline.Reading ⟨groups, 0, true⟩ token o') (ha : Awaits groups before)
    (ho : Operand operand) : Begins o' (before ++ operand ++ [token]) := by
  cases h with
  | number hc value => cases hc
  | unknown hc => cases hc
  | function hc f => cases hc
  | openParen hc => cases hc
  | closeParen hg =>
    cases hg
    cases ha with
    | inside houter hopening hf =>
      have hgroup := operand_of_closeParen hopening (hf _ ho.phrase)
      simp only [List.append_assoc] at hgroup ⊢
      exact .completed houter hgroup
  | comma hg =>
    cases hg
    cases ha with
    | inside houter hopening hf =>
      have hgroup := Awaits.inside houter (opening_of_comma hopening (hf _ ho.phrase)) leads_nil
      simp only [List.append_assoc, List.append_nil] at hgroup ⊢
      exact .awaiting hgroup
  | closeBar hc hg =>
    cases hg
    cases ha with
    | inside houter hopening hf =>
      have hgroup := operand_of_closeBar hopening (hf _ ho.phrase)
      simp only [List.append_assoc] at hgroup ⊢
      exact .completed houter hgroup
  | openBar hc => cases hc
  | factorial =>
    obtain ⟨t, ht⟩ := ho
    rw [List.append_assoc]
    exact .completed ha ⟨_, .factorial ht⟩
  | binary op =>
    rw [List.append_assoc]
    exact .awaiting (ha.append (leads_binary op ho))

/-- A token that raises the score by no more than its weight goes on with what has been read. -/
theorem begins_of_reading {before : List Token} (h : Outline.Reading o token o')
    (hs : o'.score - o.score ≤ total (contribution o.completed token)) (hb : Begins o before) :
    Begins o' (before ++ [token]) := by
  cases hb with
  | awaiting ha => exact begins_of_awaiting h hs ha
  | @calling groups before ha f n hf =>
    obtain ⟨rfl, rfl⟩ := eq_openParen_of_calling h hs
    have hnone : ([] : List (List Token)).length + (n + 1 + 1) = f.arity := by
      rw [hf, List.length_nil, Nat.zero_add]
    have hcall := Opening.call f (List.forall_mem_nil Phrase) hnone
    have hopen := Awaits.inside ha hcall leads_nil
    rw [List.append_assoc]
    exact .awaiting hopen
  | completed ha ho => exact begins_of_completed h ha ho

/-- So do tokens that raise it by no more than they weigh together: none of them can. -/
theorem begins_of_after {before : List Token} (h : o.after tokens = some o')
    (hn : Token.operator (.unary .negate) ∉ tokens)
    (hs : o'.score - o.score ≤ total (contributions o.completed tokens)) (hb : Begins o before) :
    Begins o' (before ++ tokens) := by
  induction tokens generalizing o before with
  | nil =>
    cases h
    rw [List.append_nil]
    exact hb
  | cons token tokens ih =>
    obtain ⟨hne, hn⟩ := not_or.mp (mt List.mem_cons.mpr hn)
    obtain ⟨middle, hm, hrest⟩ := Option.bind_eq_some_iff.mp h
    have hr := Outline.reading_of_next hm (Ne.symm hne)
    have hfirst := hr.total_le
    have hlater := Outline.total_contributions_le hrest hn
    rw [contributions_cons, ← hr.completed_eq, total_append] at hs
    rw [List.append_cons]
    exact ih hrest hn (by omega) (begins_of_reading hr (by omega) hb)

/-- An orderly list that leaves one value is an expression. -/
theorem phrase_of_orderly (h : Orderly tokens) (hn : Token.operator (.unary .negate) ∉ tokens)
    (ht : total (contributions false tokens) = 1) : Phrase tokens := by
  obtain ⟨o, ho, hg⟩ := Option.map_eq_some_iff.mp h
  have hs : o.score - Outline.score ⟨[], 0, false⟩ ≤ 1 := by
    have hle := o.score_le
    rw [hg] at hle
    simp only [Outline.score_awaiting, Outline.due_nil] at hle ⊢
    omega
  have hb := begins_of_after ho hn (by rw [ht]; exact hs) (.awaiting (.outermost leads_nil))
  rw [List.nil_append] at hb
  have hle := Outline.total_contributions_le ho hn
  cases hb with
  | awaiting ha =>
    cases hg
    simp only [ht, Outline.score_awaiting] at hle
    omega
  | calling ha hf =>
    cases hg
    simp only [ht, Outline.score_awaiting] at hle
    omega
  | completed ha hop =>
    cases hg
    cases ha with
    | outermost hf => exact hf _ hop.phrase

/-! ## Expressions are orderly -/

/-- What the tokens of a whole operand do to an outline. They leave one value at most, fewer
where a function is called bare that takes several arguments. -/
structure Whole (tokens : List Token) : Prop where
  completed : tokens.foldl completes false = true
  total_le : total (contributions false tokens) ≤ 1
  after_eq : total (contributions false tokens) = 1 → ∀ groups,
    (Outline.mk groups 0 false).after tokens = some ⟨groups, 0, true⟩

/-- Arguments with a comma behind each use up as many commas. -/
theorem whole_arguments {arguments : List (List Token)} (h : ∀ a ∈ arguments, Whole a) :
    let front := arguments.flatMap (· ++ [.operator .comma])
    front.foldl completes false = false ∧
    total (contributions false front) ≤ arguments.length ∧
    (total (contributions false front) = arguments.length → ∀ n groups,
      (Outline.mk ((.paren, n + arguments.length) :: groups) 0 false).after front =
        some ⟨(.paren, n) :: groups, 0, false⟩) := by
  induction arguments with
  | nil => simp
  | cons argument arguments ih =>
    obtain ⟨ha, h⟩ := List.forall_mem_cons.mp h
    obtain ⟨hc, hle, hafter⟩ := ih h
    have hone := ha.total_le
    have htotal : total (contributions false
        ((argument :: arguments).flatMap (· ++ [.operator .comma]))) =
        total (contributions false argument) +
          total (contributions false (arguments.flatMap (· ++ [.operator .comma]))) := by
      simp [contributions_append, contributions_cons, contribution, completes]
    have hlen : ((argument :: arguments).length : Int) = arguments.length + 1 := by simp
    refine ⟨?_, ?_, ?_⟩
    · simpa [completes] using hc
    · omega
    · intro he n groups
      have hfirst := ha.after_eq (by omega) ((.paren, n + arguments.length + 1) :: groups)
      have hrest := hafter (by omega) n groups
      simp only [List.flatMap_cons, List.append_assoc, Outline.after_append, List.length_cons,
        ← Nat.add_assoc, hfirst, Option.bind_some]
      exact hrest

/-- A call holds one comma less than it has arguments. -/
theorem whole_call (f : Builtin) {arguments : List (List Token)} (h : ∀ a ∈ arguments, Whole a)
    (hn : arguments.length = f.arity) :
    Whole (.function f :: .operator .openParen ::
      (separated arguments ++ [.operator .closeParen])) := by
  have hpos := f.arity_pos
  obtain rfl | ⟨front, last, rfl⟩ := List.eq_nil_or_concat arguments
  · rw [List.length_nil] at hn
    omega
  rw [List.concat_eq_append] at h hn ⊢
  obtain ⟨hfront, hlast⟩ := List.forall_mem_append.mp h
  have hl := hlast last (List.mem_singleton.mpr rfl)
  have hlen : front.length + 1 = f.arity := by
    rw [← hn, List.length_append, List.length_singleton]
  obtain ⟨hc, hle, hafter⟩ := whole_arguments hfront
  have hone := hl.total_le
  have htotal : total (contributions false (.function f :: .operator .openParen ::
      (separated (front ++ [last]) ++ [.operator .closeParen]))) =
      1 - f.arity + (total (contributions false
        (front.flatMap (· ++ [.operator .comma]))) + total (contributions false last)) := by
    simp [separated_concat, contributions_append, contributions_cons, contribution, completes, hc]
  refine ⟨by simp [completes], by omega, ?_⟩
  intro he groups
  have hbefore := hafter (by omega) 0 groups
  have hend := hl.after_eq (by omega) ((.paren, 0) :: groups)
  have harity : f.arity - 1 = front.length := by omega
  rw [Nat.zero_add] at hbefore
  simp [separated_concat, Outline.next, harity, hbefore, hend]

theorem Whole.parens (h : Whole tokens) :
    Whole (.operator .openParen :: (tokens ++ [.operator .closeParen])) := by
  have htotal : total (contributions false
      (.operator .openParen :: (tokens ++ [.operator .closeParen]))) =
      total (contributions false tokens) := by
    simp [contributions_append, contributions_cons, contribution, completes]
  have hle := h.total_le
  refine ⟨by simp [completes], by omega, ?_⟩
  intro he groups
  have hinner := h.after_eq (by omega) ((.paren, 0) :: groups)
  simp [Outline.next, hinner]

theorem Whole.bars (h : Whole tokens) :
    Whole (.operator (.unary .bar) :: (tokens ++ [.operator (.unary .bar)])) := by
  have htotal : total (contributions false
      (.operator (.unary .bar) :: (tokens ++ [.operator (.unary .bar)]))) =
      total (contributions false tokens) := by
    simp [contributions_append, contributions_cons, contribution, completes, h.completed]
  have hle := h.total_le
  refine ⟨by simp [completes, h.completed], by omega, ?_⟩
  intro he groups
  have hinner := h.after_eq (by omega) ((.bar, 0) :: groups)
  simp [Outline.next, hinner]

theorem Whole.factorial (h : Whole tokens) :
    Whole (tokens ++ [.operator (.unary .factorial)]) := by
  have htotal : total (contributions false (tokens ++ [.operator (.unary .factorial)])) =
      total (contributions false tokens) := by
    simp [contributions_append, contributions_cons, contribution]
  have hle := h.total_le
  refine ⟨by simp [completes], by omega, ?_⟩
  intro he groups
  have hinner := h.after_eq (by omega) groups
  simp [Outline.next, hinner]

/-- Both operands leave a value, and the operator takes one of the two. -/
theorem Whole.binary (op : BinaryOperator) {more : List Token} (h : Whole tokens)
    (h' : Whole more) : Whole (tokens ++ .operator (.binary op) :: more) := by
  have hle := h.total_le
  have hle' := h'.total_le
  have hop : contribution true (.operator (.binary op)) = [.operator (.binary op)] := by
    cases op <;> rfl
  have htotal : total (contributions false (tokens ++ .operator (.binary op) :: more)) =
      total (contributions false tokens) + (-1 + total (contributions false more)) := by
    simp [contributions_append, contributions_cons, completes, h.completed, hop]
  refine ⟨by simpa [completes] using h'.completed, by omega, ?_⟩
  intro he groups
  have hleft := h.after_eq (by omega) groups
  have hright := h'.after_eq (by omega) groups
  simp [Outline.next, hleft, hright]

/-- In front of an operand these are signs, and a sign takes no value. -/
theorem Whole.sign {op : BinaryOperator} (hop : op = .plus ∨ op = .minus) (h : Whole tokens) :
    Whole (.operator (.binary op) :: tokens) := by
  have htotal : total (contributions false (.operator (.binary op) :: tokens)) =
      total (contributions false tokens) := by
    rcases hop with rfl | rfl <;> simp [contributions_cons, contribution, completes]
  have hle := h.total_le
  refine ⟨by simpa [completes] using h.completed, by omega, ?_⟩
  intro he groups
  have hinner := h.after_eq (by omega) groups
  simp [Outline.next, hinner]

/-- A function of several arguments that is called bare leaves too few values. -/
theorem Whole.bareCall (f : Builtin) (h : Whole tokens) : Whole (.function f :: tokens) := by
  have hpos := f.arity_pos
  have hle := h.total_le
  have htotal : total (contributions false (.function f :: tokens)) =
      1 - f.arity + total (contributions false tokens) := by
    simp [contributions_cons, contribution, completes]
  refine ⟨by simpa [completes] using h.completed, by omega, ?_⟩
  intro he groups
  have hone : f.arity = 1 := by omega
  have hinner := h.after_eq (by omega) groups
  simp [Outline.next, hone, hinner]

/-- What every phrase does to an outline. -/
theorem whole_of_derives {l : Level} {t : Tree} {bare : Bool} (h : Derives bare l tokens t) :
    Whole tokens := by
  induction h with
  | number value => exact ⟨rfl, Int.le_refl 1, fun _ groups => rfl⟩
  | unknown => exact ⟨rfl, Int.le_refl 1, fun _ groups => rfl⟩
  | parens inner ih => exact ih.parens
  | bars inner ih => exact ih.bars
  | @call f parts trees arguments ih =>
    refine whole_call f ?_ ?_
    · intro a ha
      obtain ⟨i, -, rfl⟩ := List.mem_map.mp ha
      exact ih i
    · rw [List.length_map, List.length_finRange]
  | factorial operand ih => exact ih.factorial
  | binary op left right ihl ihr => exact ihl.binary op ihr
  | minus operand ih => exact ih.sign (.inr rfl)
  | plus operand ih => exact ih.sign (.inl rfl)
  | bareCall hb f argument ih => exact ih.bareCall f
  | looser h phrase ih => exact ih

theorem orderly_of_phrase (h : Phrase tokens) (ht : total (contributions false tokens) = 1) :
    Orderly tokens := by
  obtain ⟨t, hd⟩ := h
  have hafter := (whole_of_derives hd).after_eq ht []
  rw [Orderly, hafter]
  rfl

/-- A list that converts to well-formed postfix order need not be an expression. It is one
exactly when it is orderly. -/
theorem derives_iff_orderly {p : List Token} (hn : Token.operator (.unary .negate) ∉ tokens)
    (h : ofInfix tokens = .ok p) (hp : WellFormed p) :
    (∃ t, Derives true .equation tokens t) ↔ Orderly tokens := by
  have ht := total_contributions h hp
  constructor
  · intro hd
    exact orderly_of_phrase hd ht
  · intro ho
    exact phrase_of_orderly ho hn ht

/-- The statement above at `sin -x + nPr(3, 2)`. -/
theorem derives_iff_orderly_bareCall :
    let tokens : List Token := [.function .sin, .operator (.binary .minus), .unknown,
      .operator (.binary .plus), .function .nPr, .operator .openParen, .number 3,
      .operator .comma, .number 2, .operator .closeParen]
    let p : List Token := [.unknown, .operator (.unary .negate), .number 3, .number 2,
      .function .nPr, .operator (.binary .plus), .function .sin]
    Token.operator (.unary .negate) ∉ tokens ∧ ofInfix tokens = .ok p ∧ WellFormed p ∧
      ∃ t, Derives true .equation tokens t := by
  intro tokens p
  have hn : Token.operator (.unary .negate) ∉ tokens := by simp [tokens]
  have h : ofInfix tokens = .ok p := rfl
  have hp : WellFormed p := by decide
  exact ⟨hn, h, hp, (derives_iff_orderly hn h hp).mpr (by decide)⟩

/-- Converts to well-formed postfix order without being an expression. -/
def Misread (tokens : List Token) : Prop :=
  ∃ p, ofInfix tokens = .ok p ∧ WellFormed p ∧ ¬ ∃ t, Derives true .equation tokens t

/-- Every list that is not orderly is misread, if it converts and its values add up. -/
theorem misread_of_not_orderly {p : List Token} (h : ofInfix tokens = .ok p) (hp : WellFormed p)
    (ho : ¬ Orderly tokens) : Misread tokens := by
  refine ⟨p, h, hp, ?_⟩
  intro hd
  exact ho (orderly_of_phrase hd (total_contributions h hp))

/-- Operands side by side, a factorial before its operand and an argument from outside the
call: `2 3 +`, `!3` and `5 nPr(2)`. -/
theorem misread_misplaced :
    Misread [.number 2, .number 3, .operator (.binary .plus)] ∧
    Misread [.operator (.unary .factorial), .number 3] ∧
    Misread [.number 5, .function .nPr, .operator .openParen, .number 2,
      .operator .closeParen] := by
  refine ⟨?_, ?_, ?_⟩
  · exact misread_of_not_orderly rfl (by decide) (by decide)
  · exact misread_of_not_orderly rfl (by decide) (by decide)
  · exact misread_of_not_orderly rfl (by decide) (by decide)

end Calculator.Infix
