import Calculator.Builtin.Meaning
import Calculator.Proofs.Counters

/-!
# Evaluating with guards

The evaluation of postfix tokens as a machine does it that trusts its callers: an operator is handed
on by whether it is unary, a trigonometric function by its name, and the arguments of a call are
moved to a vector with room for two. What lies outside the contract of an operation has no result.
Every caller keeps to the contract, so that there is always a result, and it is the value or the
error of the evaluation.
-/

namespace Calculator

/-- What returns a value or an error, or has no result. -/
abbrev Attempt (α : Type) := ExceptT EvaluationError Option α

namespace Attempt

/-- An attempt that has the given result. -/
def of {α : Type} (result : Except EvaluationError α) : Attempt α := ExceptT.mk (some result)

/-- The attempt at what has a value, or has no result. -/
def ofOption {α : Type} (value : Option α) : Attempt α := ExceptT.lift value

/-- No result at all. -/
def unreachable {α : Type} : Attempt α := ExceptT.mk none

variable {α β : Type}

theorem of_ok_bind (a : α) (f : α → Attempt β) : (of (.ok a) >>= f) = f a := rfl

theorem ofOption_some (a : α) : ofOption (some a) = of (.ok a) := rfl

end Attempt

namespace Guarded

open Evaluation

/-! ## The operations -/

/-- The factorial of a non-negative integer. -/
def factorial (n : Float) : Attempt Float :=
  if !Combinatorics.isNonNegativeInteger n then throw (.invalidFactorial n)
  else if Combinatorics.largestFactorial < n then return Binary64.infinity
  else return factorialProduct n

/-- The number of ordered selections of `r` things out of `n`. -/
def permutations (n r : Float) : Attempt Float :=
  if Combinatorics.isSelection n r then .ofOption (permutationProduct n r)
  else throw (.mathError Builtin.nPr.name)

/-- The number of subsets with `r` things out of `n`. -/
def combinations (n r : Float) : Attempt Float :=
  if Combinatorics.isSelection n r then do
    return Binary64.round (← .ofOption (combinationProduct n (Combinatorics.shorterSide n r)))
  else throw (.mathError Builtin.nCr.name)

/-- The arc that a trigonometric function stands for, in radians. Only the six functions that have
an inverse mode may come here. -/
def arc (E : Elementary) (x : Float) (f : Builtin) : Attempt Float :=
  match f with
  | .sin => return E.asin x
  | .cos => return E.acos x
  | .tan => return E.atan x
  | .sec => return E.acos (← .of (f.reciprocal x))
  | .cosec => return E.asin (← .of (f.reciprocal x))
  | .cot => return E.atan (← .of (f.reciprocal x))
  | _ => .unreachable

/-- A trigonometric function of an angle in radians. Only the six functions that have an inverse
mode may come here. -/
def ofAngle (E : Elementary) (angle : Float) (f : Builtin) : Attempt Float :=
  match f with
  | .sin => return E.sin angle
  | .cos => return E.cos angle
  | .tan => if (E.tan angle).isFinite then return E.tan angle else throw (.mathError f.name)
  | .sec => .of (f.reciprocal (E.cos angle))
  | .cosec => .of (f.reciprocal (E.sin angle))
  | .cot => .of (f.reciprocal (E.tan angle))
  | _ => .unreachable

/-- A trigonometric function, or its inverse in inverse mode. -/
def trig (E : Elementary) (mode : Mode) (f : Builtin) (x : Float) : Attempt Float :=
  if mode.inverse then return mode.angle.ofRadians (← arc E x f)
  else ofAngle E (mode.angle.toRadians x) f

/-- The value of a call. The functions without a contract of their own are called as they are. -/
def call (E : Elementary) (mode : Mode) (f : Builtin) (arguments : List Float) : Attempt Float :=
  match f, arguments with
  | .sin, [x] | .cos, [x] | .tan, [x] | .sec, [x] | .cosec, [x] | .cot, [x] => trig E mode f x
  | .nPr, [n, r] => permutations n r
  | .nCr, [n, r] => combinations n r
  | f, arguments => .of (f.apply E mode arguments)

/-- An operator with one operand. No other operator may come here. -/
def applyUnary : Operator → Float → Attempt Float
  | .unary .factorial, a => factorial a
  | .unary .bar, a => return a.abs
  | .unary .negate, a => return -a
  | _, _ => .unreachable

/-- An operator with two operands, or punctuation. No operator with one operand may come here. -/
def applyBinary : Operator → Float → Float → Attempt Float
  | .binary op, a, b => .of (op.apply a b)
  | .openParen, _, _ | .closeParen, _, _ | .comma, _, _ => throw .malformedExpression
  | .unary _, _, _ => .unreachable

/-! ## The stack -/

/-- Takes the top off the stack. -/
def pop : List Float → Attempt (Float × List Float)
  | [] => throw .malformedExpression
  | a :: stack => return (a, stack)

/-- The difference of two words, unless it would be negative. -/
def difference (a b : Nat) : Option Nat := if b ≤ a then some (a - b) else none

/-- Takes off the stack what lies above its lowest `first` values, in the order it came. The stack
must have so many values. -/
def drain (stack : List Float) (first : Nat) : Option (List Float × List Float) :=
  if first ≤ stack.length then
    some ((stack.take (stack.length - first)).reverse, stack.drop (stack.length - first))
  else none

/-- Moves values to a vector with room for two. -/
def collect (values : List Float) : Option (List Float) :=
  if values.length ≤ 2 then some values else none

/-- Takes the arguments of a call off the stack. -/
def popArguments (stack : List Float) (arity : Nat) : Attempt (List Float × List Float) :=
  if stack.length < arity then throw .malformedExpression
  else do
    let first ← .ofOption (difference stack.length arity)
    let (values, below) ← .ofOption (drain stack first)
    return (← .ofOption (collect values), below)

/-! ## The machine -/

/-- Takes one token over a stack. -/
def step (E : Elementary) (mode : Mode) (env : Environment) (stack : List Float) :
    Token → Attempt (List Float)
  | .number value => return value :: stack
  | .unknown =>
    match env Token.unknownName with
    | some value => return value :: stack
    | none => throw (.undefinedVariable Token.unknownName)
  | .function f => do
    let (arguments, below) ← popArguments stack f.arity
    let result ← call E mode f arguments
    return (← .of (checked f.name arguments result)) :: below
  | .operator op =>
    if op.isUnary then do
      let (a, below) ← pop stack
      let result ← applyUnary op a
      return (← .of (checked op.symbol [a] result)) :: below
    else do
      let (b, below) ← pop stack
      let (a, below) ← pop below
      let result ← applyBinary op a b
      return (← .of (checked op.symbol [a, b] result)) :: below

/-- The value of postfix tokens, which must reduce to exactly one. -/
def value (E : Elementary) (mode : Mode) (env : Environment) (tokens : List Token) :
    Attempt Float := do
  match ← tokens.foldlM (step E mode env) [] with
  | [v] => return v
  | _ => throw .malformedExpression

variable (E : Elementary) (mode : Mode) (env : Environment)

/-! ## Factorials and selections -/

theorem factorial_eq (n : Float) : factorial n = .of (Combinatorics.factorial n) := by
  rw [factorial, Combinatorics.factorial]
  by_cases h : Combinatorics.isNonNegativeInteger n = true
  · rw [h, Bool.not_true, if_neg Bool.false_ne_true, if_neg Bool.false_ne_true]
    by_cases hle : Combinatorics.largestFactorial < n
    · rw [if_pos hle, if_pos hle]
      rfl
    · rw [if_neg hle, if_neg hle, factorialProduct_eq h hle]
      rfl
  · rw [Bool.not_eq_true] at h
    rw [h, Bool.not_false, if_pos rfl, if_pos rfl]
    rfl

theorem permutations_eq (n r : Float) : permutations n r = .of (Combinatorics.permutations n r) := by
  rw [permutations, Combinatorics.permutations]
  by_cases h : Combinatorics.isSelection n r = true
  · rw [if_pos h, if_pos h, permutationProduct_eq h, Attempt.ofOption_some]
  · rw [if_neg h, if_neg h]
    rfl

theorem combinations_eq (n r : Float) : combinations n r = .of (Combinatorics.combinations n r) := by
  rw [combinations, Combinatorics.combinations]
  by_cases h : Combinatorics.isSelection n r = true
  · rw [if_pos h, if_pos h, combinationProduct_eq h, Attempt.ofOption_some, Attempt.of_ok_bind]
    rfl
  · rw [if_neg h, if_neg h]
    rfl

/-! ## Calls -/

/-- The six functions whose calls depend on the inverse mode. -/
def IsTrigonometric (f : Builtin) : Prop :=
  f ∈ [Builtin.sin, .cos, .tan, .sec, .cosec, .cot]

/-- In both modes there is a case for each of the six functions. -/
theorem trig_eq {f : Builtin} (hf : IsTrigonometric f) (x : Float) :
    trig E mode f x = .of (f.apply E mode [x]) := by
  obtain ⟨angle, inverse⟩ := mode
  simp only [IsTrigonometric, List.mem_cons, List.not_mem_nil, or_false] at hf
  cases inverse with
  | false =>
    obtain rfl | rfl | rfl | rfl | rfl | rfl := hf
    case inr.inr.inl =>
      simp only [trig, ofAngle, Builtin.apply, Bool.false_eq_true, if_false]
      split <;> rfl
    all_goals rfl
  | true =>
    obtain rfl | rfl | rfl | rfl | rfl | rfl := hf
    case inr.inr.inr.inl =>
      simp only [trig, arc, Builtin.apply, if_true]
      cases Builtin.sec.reciprocal x <;> rfl
    case inr.inr.inr.inr.inl =>
      simp only [trig, arc, Builtin.apply, if_true]
      cases Builtin.cosec.reciprocal x <;> rfl
    case inr.inr.inr.inr.inr =>
      simp only [trig, arc, Builtin.apply, if_true]
      cases Builtin.cot.reciprocal x <;> rfl
    all_goals rfl

/-- A call has a result, whatever the arguments and their number. -/
theorem call_eq (f : Builtin) (arguments : List Float) :
    call E mode f arguments = .of (f.apply E mode arguments) := by
  unfold call
  split
  case h_7 n r => exact permutations_eq n r
  case h_8 n r => exact combinations_eq n r
  case h_9 => rfl
  all_goals exact trig_eq E mode (by simp [IsTrigonometric]) _

/-! ## Operators -/

/-- No operator that counts as unary is left out. -/
theorem applyUnary_eq (op : UnaryOperator) (a : Float) :
    applyUnary (.unary op) a = .of (op.apply (mode.context E) a) := by
  cases op with
  | factorial => exact factorial_eq a
  | bar => rfl
  | negate => rfl

theorem popArguments_of_lt {stack : List Float} {arity : Nat} (h : stack.length < arity) :
    popArguments stack arity = .of (.error .malformedExpression) := by
  rw [popArguments, if_pos h]
  rfl

/-- Arguments that fit the vector and are there can be taken. -/
theorem popArguments_of_le {stack : List Float} {arity : Nat} (h : arity ≤ stack.length)
    (htwo : arity ≤ 2) :
    popArguments stack arity = .of (.ok ((stack.take arity).reverse, stack.drop arity)) := by
  have hback : stack.length - (stack.length - arity) = arity := by omega
  have hlen : (stack.take arity).reverse.length ≤ 2 := by
    rw [List.length_reverse, List.length_take]
    omega
  rw [popArguments, if_neg (by omega), difference, if_pos h, Attempt.ofOption_some,
    Attempt.of_ok_bind, drain, if_pos (Nat.sub_le _ _), hback, Attempt.ofOption_some,
    Attempt.of_ok_bind]
  dsimp only
  rw [collect, if_pos hlen]
  rfl

theorem arity_le_two (f : Builtin) : f.arity ≤ 2 := by
  cases f <;> decide

/-! ## Runs -/

/-- The checked result of an operation comes on the stack. -/
theorem push_eq (operation : String) (operands below : List Float)
    (result : Except EvaluationError Float) :
    (Attempt.of result >>= fun r => return (← .of (checked operation operands r)) :: below) =
      .of ((result >>= checked operation operands).map (· :: below)) := by
  cases result with
  | error e => rfl
  | ok r =>
    rw [Attempt.of_ok_bind]
    change _ = Attempt.of ((checked operation operands r).map (· :: below))
    cases checked operation operands r <;> rfl

/-- One token keeps to the contracts of all that it uses. -/
theorem step_eq (stack : List Float) (token : Token) :
    step E mode env stack token = .of (Evaluation.step env (mode.context E) stack token).2 := by
  cases token with
  | number value => rfl
  | unknown =>
    simp only [step, Evaluation.step, Evaluation.plan, Task.perform]
    cases env Token.unknownName <;> rfl
  | function f =>
    simp only [step, Evaluation.step, Evaluation.plan]
    by_cases h : f.arity ≤ stack.length
    · rw [popArguments_of_le h (arity_le_two f), if_pos h, Attempt.of_ok_bind]
      dsimp only
      rw [call_eq]
      exact push_eq f.name _ _ _
    · rw [popArguments_of_lt (by omega), if_neg h]
      rfl
  | operator op =>
    cases op with
    | unary op =>
      cases stack with
      | nil => rfl
      | cons a below =>
        change (applyUnary (.unary op) a >>= _) = _
        rw [applyUnary_eq E mode]
        exact push_eq _ _ _ _
    | binary op =>
      obtain _ | ⟨b, _ | ⟨a, below⟩⟩ := stack
      · rfl
      · rfl
      · exact push_eq op.symbol [a, b] below (op.apply a b)
    | openParen | closeParen | comma => obtain _ | ⟨b, _ | ⟨a, below⟩⟩ := stack <;> rfl

theorem foldlM_step (stack : List Float) (tokens : List Token) :
    tokens.foldlM (step E mode env) stack = .of (run env (mode.context E) stack tokens) := by
  induction tokens generalizing stack with
  | nil => rfl
  | cons token tokens ih =>
    rw [List.foldlM_cons, step_eq, run_cons]
    cases (Evaluation.step env (mode.context E) stack token).2 with
    | error e => rfl
    | ok later => exact ih later

/-- The evaluation never leaves the contract of an operation: it ends with the value or the error of
the tokens. -/
theorem value_eq (tokens : List Token) :
    value E mode env tokens = .of (Evaluation.value env (mode.context E) tokens) := by
  rw [value, foldlM_step, Evaluation.value]
  cases run env (mode.context E) [] tokens with
  | error e => rfl
  | ok stack => obtain _ | ⟨v, _ | ⟨b, below⟩⟩ := stack <;> rfl

end Guarded

end Calculator
