import Calculator.Proofs.Delimiters
import Calculator.Proofs.Tree

/-!
# Conversion loses nothing and adds nothing

What a token becomes depends only on whether an operand is complete before it: punctuation and
opening bars vanish, a plus sign does too, and a minus sign becomes a negation. What has been
placed and what is still waiting is, after every token, a rearrangement of what the tokens so
far have become. So the values that a converted list leaves can be counted before it is
converted.
-/

namespace Calculator

/-- By how much the token changes the number of values. -/
def Token.weight (token : Token) : Int :=
  match token.operands? with
  | some k => 1 - k
  | none => 0

namespace Token

@[simp] theorem weight_number (value : Float) : (number value).weight = 1 := rfl

@[simp] theorem weight_unknown : unknown.weight = 1 := rfl

@[simp] theorem weight_function (f : Builtin) : (function f).weight = 1 - f.arity := rfl

@[simp] theorem weight_unary (op : UnaryOperator) : (operator (.unary op)).weight = 0 := rfl

@[simp] theorem weight_binary (op : BinaryOperator) : (operator (.binary op)).weight = -1 := rfl

end Token

namespace Postfix

/-- What the token becomes in postfix order. -/
def contribution (completed : Bool) : Token → List Token
  | .operator .openParen | .operator .closeParen | .operator .comma => []
  | .operator (.unary .bar) => if completed then [.operator (.unary .bar)] else []
  | .operator (.binary .plus) => if completed then [.operator (.binary .plus)] else []
  | .operator (.binary .minus) =>
    if completed then [.operator (.binary .minus)] else [.operator (.unary .negate)]
  | token => [token]

/-- What the tokens become, still in the order written. -/
def contributions (completed : Bool) : List Token → List Token
  | [] => []
  | token :: tokens =>
    contribution completed token ++ contributions (completes completed token) tokens

@[simp] theorem contributions_nil (completed : Bool) : contributions completed [] = [] := rfl

theorem contributions_cons (completed : Bool) (token : Token) (tokens : List Token) :
    contributions completed (token :: tokens) =
      contribution completed token ++ contributions (completes completed token) tokens := rfl

theorem contributions_append (completed : Bool) (tokens more : List Token) :
    contributions completed (tokens ++ more) =
      contributions completed tokens ++ contributions (tokens.foldl completes completed) more := by
  induction tokens generalizing completed with
  | nil => rfl
  | cons token tokens ih =>
    rw [List.cons_append, contributions_cons, ih, contributions_cons, List.append_assoc,
      List.foldl_cons]

theorem mem_contributions {completed : Bool} {tokens : List Token} {placed : Token}
    (h : placed ∈ contributions completed tokens) :
    ∃ token ∈ tokens, ∃ before, placed ∈ contribution before token := by
  induction tokens generalizing completed with
  | nil => cases h
  | cons token tokens ih =>
    obtain h | h := List.mem_append.mp h
    · exact ⟨token, List.mem_cons_self, completed, h⟩
    · obtain ⟨later, hm, hlater⟩ := ih h
      exact ⟨later, List.mem_cons_of_mem _ hm, hlater⟩

/-- An operator that is put on the stack, and is no sign, becomes itself. -/
theorem contribution_operator {op : Operator} {completed : Bool} (hop : op.precedence.isSome = true)
    (hc : completed = true ∨ isSign op = false) :
    contribution completed (.operator op) = [.operator op] := by
  cases op with
  | unary op =>
    cases op with
    | factorial => rfl
    | bar => cases hop
    | negate => rfl
  | binary op =>
    rcases hc with rfl | hc
    · cases op <;> rfl
    · cases op <;> first | rfl | cases hc
  | openParen => cases hop
  | closeParen => cases hop
  | comma => cases hop

/-- One token adds what it becomes to what is placed or waits, and nothing leaves the two. -/
theorem transition_perm {s u : State} {token : Token} {placed : List Token}
    (h : Transition s token placed u) :
    (placed ++ placedBy u.pending).Perm
      (placedBy s.pending ++ contribution s.afterOperand token) := by
  cases h with
  | number value => exact List.perm_append_singleton _ _ |>.symm
  | unknown => exact List.perm_append_singleton _ _ |>.symm
  | function f => exact List.perm_append_singleton _ _ |>.symm
  | openParen => simp [contribution]
  | closeCall ha hs => simp [hs, contribution]
  | closeParen ha hs hb => simp [hs, contribution]
  | comma ha hs => simp [hs, contribution]
  | @closeBar above below hc ha hs =>
    have hbar : contribution s.afterOperand (.operator (.unary .bar)) =
        [.operator (.unary .bar)] := by simp [contribution, hc]
    rw [hs, hbar, placedBy_append, placedBy_opening, List.append_assoc, List.append_assoc]
    exact List.perm_append_comm.append_left _
  | openBar hc => simp [contribution, hc]
  | plus hc => simp [contribution, hc]
  | @sign op hc hop =>
    have hneg : contribution s.afterOperand (.operator op) = [.operator (.unary .negate)] := by
      rcases hop with rfl | rfl <;> simp [contribution, hc]
    rw [hneg]
    exact List.perm_append_singleton _ _ |>.symm
  | @operator op hop hc =>
    have hall : placedBy (s.pending.takeWhile (·.precedes op)) ++
        placedBy (s.pending.dropWhile (·.precedes op)) = placedBy s.pending := by
      rw [← placedBy_append, List.takeWhile_append_dropWhile]
    rw [contribution_operator hop hc, placedBy_operator, ← hall, List.append_assoc]
    exact (List.perm_append_singleton _ _).symm.append_left _

/-- Along every list that can be fed, what is placed or waits is what was there and what the
tokens become. -/
theorem feed_perm {tokens placed : List Token} {s u : State}
    (h : feed s tokens = .ok (placed, u)) :
    (placed ++ placedBy u.pending).Perm
      (placedBy s.pending ++ contributions s.afterOperand tokens) := by
  induction tokens generalizing s placed with
  | nil =>
    cases h
    simp
  | cons token tokens ih =>
    obtain ⟨first, v, later, ht, hf, rfl⟩ := feed_cons_eq_ok h
    have hstep := transition_perm ht
    have hrest := ih hf
    have hmiddle : (first ++ (later ++ placedBy u.pending)).Perm
        (first ++ placedBy v.pending ++ contributions v.afterOperand tokens) := by
      rw [List.append_assoc first]
      exact hrest.append_left first
    rw [contributions_cons, ← (transition_nest ht).1, List.append_assoc first,
      ← List.append_assoc (placedBy s.pending)]
    exact hmiddle.trans (hstep.append_right _)

/-- A converted list is a rearrangement of what its tokens become. -/
theorem perm_ofInfix {tokens p : List Token} (h : ofInfix tokens = .ok p) :
    p.Perm (contributions false tokens) := by
  obtain ⟨placed, s, hf, hs, rfl⟩ := feed_of_ofInfix h
  exact feed_perm hf

/-! ## Counting values -/

/-- By how much the tokens change the number of values. -/
def total : List Token → Int
  | [] => 0
  | token :: tokens => token.weight + total tokens

@[simp] theorem total_nil : total [] = 0 := rfl

@[simp] theorem total_cons (token : Token) (tokens : List Token) :
    total (token :: tokens) = token.weight + total tokens := rfl

@[simp] theorem total_append (tokens more : List Token) :
    total (tokens ++ more) = total tokens + total more := by
  induction tokens with
  | nil => simp
  | cons token tokens ih => simp [ih, Int.add_assoc]

/-- Where an operand is expected, a binary operator is a sign or takes a value too many. -/
theorem total_contribution_binary_le (op : BinaryOperator) :
    total (contribution false (.operator (.binary op))) ≤ 0 := by
  cases op <;> decide

theorem total_perm {tokens more : List Token} (h : tokens.Perm more) :
    total tokens = total more := by
  induction h with
  | nil => rfl
  | cons token h ih => simp [ih]
  | swap a b tokens => simp [Int.add_left_comm]
  | trans _ _ ih ih' => exact ih.trans ih'

/-- Where every token finds its operands, the weights tell how many values are left. -/
theorem total_of_depthAfter {tokens : List Token} {depth final : Nat}
    (h : depthAfter depth tokens = some final) : (final : Int) = depth + total tokens := by
  induction tokens generalizing depth with
  | nil =>
    cases h
    simp
  | cons token tokens ih =>
    obtain ⟨k, hk, hle, hrest⟩ := depthAfter_cons_eq_some h
    have hw : token.weight = 1 - k := by simp [Token.weight, hk]
    have hd : ((depth - k + 1 : Nat) : Int) = depth - k + 1 := by omega
    have := ih hrest
    rw [total_cons, hw]
    omega

/-- The tokens of a well-formed conversion leave one value already in the order written. -/
theorem total_contributions {tokens p : List Token} (h : ofInfix tokens = .ok p)
    (hp : WellFormed p) : total (contributions false tokens) = 1 := by
  have hone : ((1 : Nat) : Int) = (0 : Nat) + total p := total_of_depthAfter hp
  rw [← total_perm (perm_ofInfix h)]
  omega

end Postfix

end Calculator
