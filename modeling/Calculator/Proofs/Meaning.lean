import Mathlib.Data.List.Forall2
import Calculator.Proofs.Tree
import Calculator.Evaluation

/-!
# Running a postorder computes the tree

A tree has a value of its own, by recursion. The stack machine, run on the postorder of the
tree, computes that value over whatever lies on the stack, or stops with the same error. The
machine itself never finds the tokens of a tree malformed: the context alone can say so.
-/

namespace Calculator

/-- Does the operator refuse zero as its right operand? -/
def BinaryOperator.divides : BinaryOperator → Bool
  | divide | modulo => true
  | _ => false

def BinaryOperator.result : BinaryOperator → Float → Float → Float
  | plus, a, b => a + b
  | minus, a, b | equals, a, b => a - b
  | times, a, b => a * b
  | divide, a, b => a / b
  | modulo, a, b => Binary64.remainder a b
  | power, a, b => a ^ b

theorem BinaryOperator.apply_eq (op : BinaryOperator) (a b : Float) :
    op.apply a b =
      if op.divides = true ∧ (b == 0) = true then .error (.mathError op.symbol)
      else .ok (op.result a b) := by
  cases op <;> simp [BinaryOperator.apply, divides, result, symbol]

namespace Tree

/-- The value of an operation, refused where it is NaN although no operand is. -/
def settled (name : String) (operands : List Float) (result : Float) :
    Except EvaluationError Float :=
  if result.isNaN = true ∧ ∀ v ∈ operands, v.isNaN = false then .error (.mathError name)
  else .ok result

/-- The value of the tree. Subtrees come from left to right, and the first error is the answer. -/
def meaning (env : Environment) (ctx : Context) : Tree → Except EvaluationError Float
  | number value => .ok value
  | unknown =>
    match env Token.unknownName with
    | some value => .ok value
    | none => .error (.undefinedVariable Token.unknownName)
  | call f arguments => do
    let values ← (List.finRange f.arity).mapM fun i => (arguments i).meaning env ctx
    settled f.name values (← ctx.apply f values)
  | unary op operand => do
    let a ← operand.meaning env ctx
    match op with
    | .factorial => settled op.symbol [a] (← ctx.factorial a)
    | .bar => settled op.symbol [a] a.abs
    | .negate => settled op.symbol [a] (-a)
  | binary op left right => do
    let a ← left.meaning env ctx
    let b ← right.meaning env ctx
    if op.divides = true ∧ (b == 0) = true then .error (.mathError op.symbol)
    else settled op.symbol [a, b] (op.result a b)

end Tree

namespace Evaluation

variable (env : Environment) (ctx : Context)

theorem checked_eq_settled (name : String) (operands : List Float) (result : Float) :
    checked name operands result = Tree.settled name operands result := by
  have h : (result.isNaN && !operands.any Float.isNaN) = true ↔
      result.isNaN = true ∧ ∀ v ∈ operands, v.isNaN = false := by simp
  by_cases hr : (result.isNaN && !operands.any Float.isNaN) = true
  · rw [checked, Tree.settled, if_pos hr, if_pos (h.mp hr)]
  · rw [checked, Tree.settled, if_neg hr, if_neg (fun hs => hr (h.mpr hs))]

theorem run_singleton (stack : List Float) (token : Token) :
    run env ctx stack [token] = (step env ctx stack token).2 := by
  rw [run_cons]
  cases (step env ctx stack token).2 <;> rfl

theorem step_eq {token : Token} {stack below : List Float} {task : Task}
    (h : plan token stack = some (task, below)) :
    (step env ctx stack token).2 = (task.perform env ctx).map (· :: below) := by
  simp only [step, h]

/-- The arguments of a call are on top of the stack, the last one first. -/
theorem plan_function (f : Builtin) (values stack : List Float) (h : values.length = f.arity) :
    plan (.function f) (values.reverse ++ stack) = some (.function f values, stack) := by
  have hl : values.reverse.length = f.arity := by rw [List.length_reverse, h]
  have hk : f.arity ≤ (values.reverse ++ stack).length := by
    rw [List.length_append, hl]
    omega
  rw [plan, if_pos hk, ← hl, List.take_left, List.drop_left, List.reverse_reverse]

theorem forall₂_of_mapM {α β ε : Type} {items : List α} {f : α → Except ε β} {results : List β}
    (h : items.mapM f = .ok results) : List.Forall₂ (fun a b => f a = .ok b) items results := by
  induction items generalizing results with
  | nil =>
    cases h
    exact .nil
  | cons a items ih =>
    rw [List.mapM_cons] at h
    cases ha : f a with
    | error e =>
      rw [ha] at h
      cases h
    | ok b =>
      cases hr : items.mapM f with
      | error e =>
        rw [ha, hr] at h
        cases h
      | ok rest =>
        rw [ha, hr] at h
        cases h
        exact .cons ha (ih hr)

/-- Subtrees next to one another leave their values, if each of them does, or stop at the first
error. -/
theorem run_flatMap {α : Type} (items : List α) (written : α → List Token)
    (meaning : α → Except EvaluationError Float)
    (h : ∀ a stack, run env ctx stack (written a) = (meaning a).map (· :: stack))
    (stack : List Float) :
    run env ctx stack (items.flatMap written) =
      (items.mapM meaning).map (fun values => values.reverse ++ stack) := by
  induction items generalizing stack with
  | nil => rfl
  | cons a items ih =>
    rw [List.flatMap_cons, run_append, h, List.mapM_cons]
    cases meaning a with
    | error e => rfl
    | ok v =>
      change run env ctx (v :: stack) (items.flatMap written) = _
      rw [ih]
      cases items.mapM meaning with
      | error e => rfl
      | ok values =>
        simp [Except.map, bind, Except.bind, pure, Except.pure]

/-- Over any stack, the postorder of a tree leaves the value of the tree on top. -/
theorem run_postorder (t : Tree) (stack : List Float) :
    run env ctx stack t.postorder = (t.meaning env ctx).map (· :: stack) := by
  induction t generalizing stack with
  | number value => rfl
  | unknown =>
    rw [Tree.postorder, run_singleton, step_eq env ctx rfl, Tree.meaning]
    rfl
  | call f arguments ih =>
    rw [Tree.postorder, run_append, run_flatMap env ctx _ _ _ (fun i => ih i), Tree.meaning]
    cases hv : (List.finRange f.arity).mapM fun i => (arguments i).meaning env ctx with
    | error e => rfl
    | ok values =>
      have hl : values.length = f.arity := by
        rw [← (forall₂_of_mapM hv).length_eq, List.length_finRange]
      change run env ctx (values.reverse ++ stack) [.function f] = _
      rw [run_singleton, step_eq env ctx (plan_function f values stack hl)]
      simp only [Task.perform, checked_eq_settled]
      rfl
  | unary op operand ih =>
    rw [Tree.postorder, run_append, ih, Tree.meaning]
    cases operand.meaning env ctx with
    | error e => rfl
    | ok a =>
      change run env ctx (a :: stack) [.operator (.unary op)] = _
      rw [run_singleton, step_eq env ctx rfl]
      simp only [Task.perform, checked_eq_settled]
      -- stated by simp: rfl would evaluate the operation on floats
      cases op with
      | factorial => rfl
      | bar => simp only [UnaryOperator.apply, bind, Except.bind]
      | negate => simp only [UnaryOperator.apply, bind, Except.bind]
  | binary op left right ihl ihr =>
    rw [Tree.postorder, run_append, run_append, ihl, Tree.meaning]
    cases left.meaning env ctx with
    | error e => rfl
    | ok a =>
      change (run env ctx (a :: stack) right.postorder).bind _ = _
      rw [ihr]
      cases right.meaning env ctx with
      | error e => rfl
      | ok b =>
        -- the right operand is on top, the left one below it
        change run env ctx (b :: a :: stack) [.operator (.binary op)] = _
        rw [run_singleton, step_eq env ctx rfl]
        simp only [Task.perform, checked_eq_settled, BinaryOperator.apply_eq]
        by_cases hz : op.divides = true ∧ (b == 0) = true
        · simp only [if_pos hz]
          simp [bind, Except.bind, hz]
        · simp only [if_neg hz]
          simp [bind, Except.bind, hz]

/-- What the environment or the context says to a question. -/
def Call.answer : Call → Except EvaluationError Float
  | lookup name =>
    match env name with
    | some value => .ok value
    | none => .error (.undefinedVariable name)
  | function f arguments => ctx.apply f arguments
  | factorial n => ctx.factorial n

theorem settled_ne_malformed (name : String) (operands : List Float) (result : Float) :
    Tree.settled name operands result ≠ .error .malformedExpression := by
  intro h
  simp only [Tree.settled] at h
  split at h <;> simp at h

/-- A task fails as malformed only with the answer to its own question. -/
theorem answer_of_perform {task : Task}
    (h : task.perform env ctx = .error .malformedExpression) :
    ∃ call, task.call? = some call ∧ call.answer env ctx = .error .malformedExpression := by
  cases task with
  | constant value => cases h
  | lookup name => exact ⟨.lookup name, rfl, h⟩
  | function f arguments =>
    refine ⟨.function f arguments, rfl, ?_⟩
    simp only [Task.perform, checked_eq_settled] at h
    cases ha : ctx.apply f arguments with
    | error e =>
      rw [ha] at h
      exact ha.trans h
    | ok v =>
      rw [ha] at h
      exact (settled_ne_malformed _ _ _ h).elim
  | unary op a =>
    simp only [Task.perform, checked_eq_settled] at h
    cases op with
    | factorial =>
      refine ⟨.factorial a, rfl, ?_⟩
      simp only [UnaryOperator.apply] at h
      cases ha : ctx.factorial a with
      | error e =>
        rw [ha] at h
        exact ha.trans h
      | ok v =>
        rw [ha] at h
        exact (settled_ne_malformed _ _ _ h).elim
    | bar => exact (settled_ne_malformed _ _ _ h).elim
    | negate => exact (settled_ne_malformed _ _ _ h).elim
  | binary op a b =>
    simp only [Task.perform, checked_eq_settled, BinaryOperator.apply_eq] at h
    by_cases hz : op.divides = true ∧ (b == 0) = true
    · simp [if_pos hz, bind, Except.bind] at h
    · rw [if_neg hz] at h
      exact (settled_ne_malformed _ _ _ h).elim

/-- A token that finds its operands has a task, and takes just those operands. -/
theorem exists_plan {token : Token} {stack : List Float} {k : Nat}
    (h : token.operands? = some k) (hk : k ≤ stack.length) :
    ∃ task, plan token stack = some (task, stack.drop k) := by
  cases token with
  | number value =>
    cases h
    exact ⟨_, rfl⟩
  | unknown =>
    cases h
    exact ⟨_, rfl⟩
  | function f =>
    cases h
    exact ⟨_, if_pos hk⟩
  | operator op =>
    cases op with
    | unary op =>
      cases h
      match stack, hk with
      | a :: stack, _ => exact ⟨_, rfl⟩
    | binary op =>
      cases h
      match stack, hk with
      | b :: a :: stack, _ => exact ⟨_, rfl⟩
    | openParen => cases h
    | closeParen => cases h
    | comma => cases h

/-- The questions of a token that succeeds come before those of the tokens after it. -/
theorem calls_cons_of_ok {stack later : List Float} {token : Token} (tokens : List Token)
    (h : (step env ctx stack token).2 = .ok later) :
    calls env ctx stack (token :: tokens) =
      (step env ctx stack token).1.toList ++ calls env ctx later tokens := by
  rw [calls]
  generalize step env ctx stack token = outcome at h
  obtain ⟨call?, result⟩ := outcome
  cases h
  rfl

/-- A token that fails asks the last question. -/
theorem calls_cons_of_error {stack : List Float} {token : Token} {e : EvaluationError}
    (tokens : List Token) (h : (step env ctx stack token).2 = .error e) :
    calls env ctx stack (token :: tokens) = (step env ctx stack token).1.toList := by
  rw [calls]
  generalize step env ctx stack token = outcome at h
  obtain ⟨call?, result⟩ := outcome
  cases h
  exact List.append_nil _

/-- Where no token lacks operands, only an answer can make the run malformed. -/
theorem answer_of_run {tokens : List Token} {stack : List Float} {final : Nat}
    (hd : Postfix.depthAfter stack.length tokens = some final)
    (h : run env ctx stack tokens = .error .malformedExpression) :
    ∃ call ∈ calls env ctx stack tokens,
      call.answer env ctx = .error .malformedExpression := by
  induction tokens generalizing stack with
  | nil => cases h
  | cons token tokens ih =>
    obtain ⟨k, ho, hk, hd'⟩ := Postfix.depthAfter_cons_eq_some hd
    obtain ⟨task, hp⟩ := exists_plan ho hk
    have hcall : (step env ctx stack token).1 = task.call? := by simp only [step, hp]
    have hstep := step_eq env ctx hp
    rw [run_cons, hstep] at h
    cases hv : task.perform env ctx with
    | error e =>
      rw [hv] at h hstep
      have he : e = .malformedExpression := by
        cases h
        rfl
      obtain ⟨call, hc, ha⟩ := answer_of_perform env ctx (hv.trans (congrArg _ he))
      refine ⟨call, ?_, ha⟩
      rw [calls_cons_of_error env ctx tokens hstep, hcall, hc]
      exact List.mem_singleton_self call
    | ok v =>
      rw [hv] at h hstep
      have hl : (v :: stack.drop k).length = stack.length - k + 1 := by
        rw [List.length_cons, List.length_drop]
      obtain ⟨call, hm, ha⟩ := ih (hl ▸ hd') h
      refine ⟨call, ?_, ha⟩
      rw [calls_cons_of_ok env ctx tokens hstep]
      exact List.mem_append_right _ hm

/-- The machine gives the postorder of a tree the value of the tree, and calls it malformed only
if an answer of the context did. -/
theorem value_postorder (t : Tree) :
    value env ctx t.postorder = t.meaning env ctx ∧
      (value env ctx t.postorder = .error .malformedExpression →
        ∃ call ∈ calls env ctx [] t.postorder,
          call.answer env ctx = .error .malformedExpression) := by
  have hr := run_postorder env ctx t []
  have hv : value env ctx t.postorder = t.meaning env ctx := by
    rw [value, hr]
    cases t.meaning env ctx <;> rfl
  refine ⟨hv, ?_⟩
  intro h
  rw [hv] at h
  rw [h] at hr
  exact answer_of_run env ctx (Postfix.wellFormed_postorder t) hr

end Evaluation

end Calculator
