import Calculator.Token
import Calculator.Error

/-!
# Postfix order

Rearranges the tokens of an expression so that operands stand before what applies to them.
Numbers and the unknown pass straight through. Operators, functions and opened groups wait
on a stack: an operator leaves it when a looser one follows, a function when the parenthesis
after its name closes, and everything in a group when the group does.

One bit of context is kept: whether an operand has just been completed. It tells a sign from
an operator, and a bar that closes from one that opens.
-/

namespace Calculator.Postfix

/-- What can open a group. -/
inductive Delimiter where
  | paren | bar
  deriving DecidableEq, Repr

/-- What waits on the stack. -/
inductive Pending where
  | operator (op : Operator)
  | function (f : Builtin)
  | opening (d : Delimiter)
  deriving DecidableEq, Repr

namespace Pending

/-- The token that leaves the stack; what opens a group leaves none. -/
def token? : Pending → Option Token
  | operator op => some (.operator op)
  | function f => some (.function f)
  | opening _ => none

def isOpening : Pending → Bool
  | opening _ => true
  | _ => false

/-- Is it an operator that applies before `next`, which comes after it? -/
def precedes (next : Operator) : Pending → Bool
  | operator op => op.precedes next
  | _ => false

end Pending

/-- The stack, its top first, and whether an operand has just been completed. -/
structure State where
  pending : List Pending
  afterOperand : Bool
  deriving DecidableEq, Repr

/-- Before the first token. -/
def start : State := ⟨[], false⟩

/-- Ends the innermost group, which must be one that `d` opened: what leaves the stack, and
the stack below the group. -/
def closeGroup (d : Delimiter) (pending : List Pending) :
    Except ParseError (List Token × List Pending) :=
  match pending.dropWhile (!·.isOpening) with
  | .opening found :: below =>
    if found = d then
      .ok ((pending.takeWhile (!·.isOpening)).filterMap Pending.token?, below)
    else .error .unbalancedParentheses
  | _ => .error .unbalancedParentheses

/-- Puts an operator on the stack after those that apply before it have left. A factorial
completes an operand; after any other operator one is expected. -/
def putOperator (s : State) (op : Operator) : List Token × State :=
  ((s.pending.takeWhile (·.precedes op)).filterMap Pending.token?,
    ⟨.operator op :: s.pending.dropWhile (·.precedes op), op == .unary .factorial⟩)

/-- Takes one token: the tokens that can be placed now, and the state after it. -/
def step (s : State) : Token → Except ParseError (List Token × State)
  | .number value => .ok ([.number value], { s with afterOperand := true })
  | .unknown => .ok ([.unknown], { s with afterOperand := true })
  | .function f => .ok ([], ⟨.function f :: s.pending, false⟩)
  | .operator .openParen => .ok ([], ⟨.opening .paren :: s.pending, false⟩)
  | .operator .closeParen => do
    let (placed, pending) ← closeGroup .paren s.pending
    match pending with
    | .function f :: below => return (placed ++ [.function f], ⟨below, true⟩)
    | _ => return (placed, ⟨pending, true⟩)
  | .operator .comma => do
    let (placed, pending) ← closeGroup .paren s.pending
    return (placed, ⟨.opening .paren :: pending, false⟩)
  | .operator (.unary .bar) =>
    if s.afterOperand then do
      let (placed, pending) ← closeGroup .bar s.pending
      return (placed ++ [.operator (.unary .bar)], ⟨pending, true⟩)
    else .ok ([], { s with pending := .opening .bar :: s.pending })
  | .operator op =>
    if s.afterOperand then .ok (putOperator s op)
    else
      match op with
      | .binary .plus => .ok ([], s)
      | .binary .minus | .unary .negate =>
        .ok ([], { s with pending := .operator (.unary .negate) :: s.pending })
      | op => .ok (putOperator s op)

/-- Takes tokens one after the other: all that is placed on the way, and the state at the end. -/
def feed (s : State) : List Token → Except ParseError (List Token × State)
  | [] => .ok ([], s)
  | token :: tokens => do
    let (placed, s) ← step s token
    let (later, s) ← feed s tokens
    return (placed ++ later, s)

@[simp] theorem feed_nil (s : State) : feed s [] = .ok ([], s) := rfl

theorem feed_cons (s : State) (token : Token) (tokens : List Token) :
    feed s (token :: tokens) = (do
      let (placed, t) ← step s token
      let (later, u) ← feed t tokens
      return (placed ++ later, u)) := rfl

/-- Feeding two lists in a row places what the first places and then what the second does. -/
theorem feed_append (s : State) (tokens more : List Token) :
    feed s (tokens ++ more) = (do
      let (placed, t) ← feed s tokens
      let (later, u) ← feed t more
      return (placed ++ later, u)) := by
  induction tokens generalizing s with
  | nil =>
    cases h : feed s more <;> simp [h, bind, Except.bind, pure, Except.pure]
  | cons token tokens ih =>
    simp only [List.cons_append, feed_cons, bind, Except.bind, pure, Except.pure] at ih ⊢
    cases step s token with
    | error e => rfl
    | ok r =>
      simp only [ih]
      cases feed r.2 tokens with
      | error e => rfl
      | ok q => cases h : feed q.2 more <;> simp [h, List.append_assoc]

/-- What is left on the stack, when no group is open. -/
def finish (s : State) : Except ParseError (List Token) :=
  if s.pending.any Pending.isOpening then .error .unbalancedParentheses
  else .ok (s.pending.filterMap Pending.token?)

/-- The tokens in postfix order. -/
def ofInfix (tokens : List Token) : Except ParseError (List Token) :=
  if tokens.isEmpty then .error .emptyExpression
  else do
    let (placed, s) ← feed start tokens
    let rest ← finish s
    return placed ++ rest

end Calculator.Postfix
