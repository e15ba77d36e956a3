import Calculator.Combinatorics
import Calculator.Proofs.Tasks

/-!
# What a run asks

The unknown, functions and factorials are the tokens that pose a question, each of them one. A run
asks these questions in the order of the tokens, none twice and none left out, until a token fails;
so a question that makes its token fail is the last. Over the postorder of a tree the questions are
those of its nodes, each about the values of the children of the node.
-/

namespace Calculator

/-- Does the token pose a question? -/
def Token.poses : Token → Bool
  | .unknown | .function _ | .operator (.unary .factorial) => true
  | _ => false

/-- The subtrees that pose a question, in the order of the postorder. -/
def Tree.posing : Tree → List Tree
  | number _ => []
  | unknown => [unknown]
  | call f arguments =>
    (List.finRange f.arity).flatMap (fun i => (arguments i).posing) ++ [call f arguments]
  | unary op operand =>
    operand.posing ++
      match op with
      | .factorial => [unary .factorial operand]
      | .bar | .negate => []
  | binary _ left right => left.posing ++ right.posing

namespace Evaluation

/-- The question is one that the token poses: what the unknown is, what a function makes of as many
arguments as it takes, or what the factorial of a number is. -/
inductive Poses : Token → Call → Prop where
  | unknown : Poses .unknown (.lookup Token.unknownName)
  | function {f : Builtin} {arguments : List Float} (h : arguments.length = f.arity) :
    Poses (.function f) (.function f arguments)
  | factorial (n : Float) : Poses (.operator (.unary .factorial)) (.factorial n)

/-- The operation whose result is refused if it is NaN. -/
def Call.operation? : Call → Option String
  | lookup _ => none
  | function f _ => some f.name
  | factorial _ => some (UnaryOperator.symbol .factorial)

variable (env : Environment) (ctx : Context)

/-- The question is the one that the node poses, about the values of its children from left to
right. -/
inductive PosedBy : Tree → Call → Prop where
  | unknown : PosedBy .unknown (.lookup Token.unknownName)
  | call {f : Builtin} {arguments : Fin f.arity → Tree} {values : List Float}
    (h : List.Forall₂ (fun i v => (arguments i).meaning env ctx = .ok v) (List.finRange f.arity)
      values) : PosedBy (.call f arguments) (.function f values)
  | factorial {operand : Tree} {n : Float} (h : operand.meaning env ctx = .ok n) :
    PosedBy (.unary .factorial operand) (.factorial n)

/-- The answer is a failure, or it is refused: it is NaN, and no argument accounts for it. -/
inductive Call.Fails : Call → EvaluationError → Prop where
  | answer {call : Call} {e : EvaluationError} (h : Call.answer env ctx call = .error e) :
    Fails call e
  | nan {call : Call} {name : String} {v : Float} (hname : call.operation? = some name)
    (h : Call.answer env ctx call = .ok v) (hv : v.isNaN = true)
    (hargs : ∀ a ∈ call.arguments, a.isNaN = false) : Fails call (.mathError name)

/-- The questions of a run are those that the first of some items pose, one after the other, and
those of all items if the run does not fail. -/
def AsksInTurn {α : Type} (poses : α → Call → Prop) (items : List α) (stack : List Float)
    (tokens : List Token) : Prop :=
  ∃ asked, asked <+: items ∧ List.Forall₂ poses asked (calls env ctx stack tokens) ∧
    ∀ later, run env ctx stack tokens = .ok later → asked = items

variable {env ctx} {token : Token} {tokens more : List Token} {stack later below : List Float}
  {task : Task} {call : Call} {e : EvaluationError} {t : Tree}

/-! ## Two runs in a row -/

theorem calls_append_of_ok (h : run env ctx stack tokens = .ok later) (more : List Token) :
    calls env ctx stack (tokens ++ more) =
      calls env ctx stack tokens ++ calls env ctx later more := by
  induction tokens generalizing stack with
  | nil =>
    cases h
    rfl
  | cons token tokens ih =>
    obtain ⟨reached, hs, hr⟩ := run_cons_eq_ok h
    rw [List.cons_append, calls_cons_of_ok env ctx _ hs, calls_cons_of_ok env ctx _ hs, ih hr,
      List.append_assoc]

theorem calls_append_of_error (h : run env ctx stack tokens = .error e) (more : List Token) :
    calls env ctx stack (tokens ++ more) = calls env ctx stack tokens := by
  induction tokens generalizing stack with
  | nil => cases h
  | cons token tokens ih =>
    rw [List.cons_append]
    cases hs : (step env ctx stack token).2 with
    | error e' => rw [calls_cons_of_error env ctx _ hs, calls_cons_of_error env ctx _ hs]
    | ok reached =>
      rw [run_cons, hs] at h
      rw [calls_cons_of_ok env ctx _ hs, calls_cons_of_ok env ctx _ hs, ih h]

section InTurn

variable {α β : Type} {poses : α → Call → Prop} {items others : List α} {a : α}

theorem asksInTurn_nil (stack : List Float) : AsksInTurn env ctx poses [] stack [] :=
  ⟨[], List.prefix_rfl, .nil, fun _ _ => rfl⟩

/-- The second of two runs in a row asks only if the first does not fail. -/
theorem AsksInTurn.append (h : AsksInTurn env ctx poses items stack tokens)
    (h' : ∀ later, run env ctx stack tokens = .ok later →
      AsksInTurn env ctx poses others later more) :
    AsksInTurn env ctx poses (items ++ others) stack (tokens ++ more) := by
  obtain ⟨asked, hprefix, hall, hwhole⟩ := h
  cases hr : run env ctx stack tokens with
  | error e =>
    refine ⟨asked, hprefix.trans (List.prefix_append _ _), ?_, ?_⟩
    · rw [calls_append_of_error hr]
      exact hall
    · intro later hlater
      rw [run_append, hr] at hlater
      cases hlater
  | ok reached =>
    obtain ⟨asked', hprefix', hall', hwhole'⟩ := h' reached hr
    obtain rfl := hwhole reached hr
    refine ⟨asked ++ asked', (List.prefix_append_right_inj asked).mpr hprefix', ?_, ?_⟩
    · rw [calls_append_of_ok hr]
      exact List.rel_append hall hall'
    · intro later hlater
      rw [run_append, hr] at hlater
      rw [hwhole' later hlater]

theorem asksInTurn_flatMap {parts : List β} {posing : β → List α} {written : β → List Token}
    (h : ∀ b stack, AsksInTurn env ctx poses (posing b) stack (written b)) (stack : List Float) :
    AsksInTurn env ctx poses (parts.flatMap posing) stack (parts.flatMap written) := by
  induction parts generalizing stack with
  | nil => exact asksInTurn_nil stack
  | cons b parts ih => exact (h b stack).append fun later _ => ih later

theorem calls_singleton (env : Environment) (ctx : Context) (stack : List Float) (token : Token) :
    calls env ctx stack [token] = (step env ctx stack token).1.toList := by
  cases hs : (step env ctx stack token).2 with
  | error e => exact calls_cons_of_error env ctx [] hs
  | ok later =>
    rw [calls_cons_of_ok env ctx [] hs]
    exact List.append_nil _

theorem step_call (hp : plan token stack = some (task, below)) :
    (step env ctx stack token).1 = task.call? := by
  simp only [step, hp]

/-- A token with a question asks it, even if it fails then. -/
theorem asksInTurn_of_call (hp : plan token stack = some (task, below))
    (hc : task.call? = some call) (h : poses a call) :
    AsksInTurn env ctx poses [a] stack [token] := by
  refine ⟨[a], List.prefix_rfl, ?_, fun _ _ => rfl⟩
  rw [calls_singleton, step_call hp, hc]
  exact .cons h .nil

/-- A token that poses no question asks none. -/
theorem asksInTurn_of_silent (ht : token.poses = false) (stack : List Float) :
    AsksInTurn env ctx poses [] stack [token] := by
  refine ⟨[], List.prefix_rfl, ?_, fun _ _ => rfl⟩
  rw [calls_singleton]
  cases hp : plan token stack with
  | none =>
    simp only [step, hp]
    exact .nil
  | some r =>
    obtain ⟨task, below⟩ := r
    obtain ⟨rfl, -, -⟩ := plan_eq_some hp
    have hc : task.call? = none := by
      unfold Task.call?
      split <;> first | rfl | cases ht
    rw [step_call hp, hc]
    exact .nil

end InTurn

/-! ## Tokens -/

/-- The task of a token that poses a question asks one that the token poses. -/
theorem exists_call_of_poses (hp : plan token stack = some (task, below))
    (ht : token.poses = true) : ∃ call, task.call? = some call ∧ Poses token call := by
  obtain ⟨rfl, ho, -⟩ := plan_eq_some hp
  cases task with
  | constant value => cases ht
  | lookup name =>
    obtain rfl := eq_unknownName_of_plan hp
    exact ⟨_, rfl, .unknown⟩
  | function f arguments => exact ⟨_, rfl, .function (Option.some.inj ho).symm⟩
  | unary op a =>
    cases op with
    | factorial => exact ⟨_, rfl, .factorial a⟩
    | bar => cases ht
    | negate => cases ht
  | binary op a b => cases ht

theorem asksInTurn_singleton (token : Token) (stack : List Float) :
    AsksInTurn env ctx Poses ([token].filter Token.poses) stack [token] := by
  cases ht : token.poses with
  | false =>
    rw [List.filter_cons_of_neg (by simp [ht])]
    exact asksInTurn_of_silent ht stack
  | true =>
    rw [List.filter_cons_of_pos ht]
    cases hp : plan token stack with
    | some r =>
      obtain ⟨call, hc, h⟩ := exists_call_of_poses hp ht
      exact asksInTurn_of_call hp hc h
    | none =>
      -- the token lacks operands, and fails before it could ask
      refine ⟨[], List.nil_prefix, ?_, ?_⟩
      · rw [calls_singleton]
        simp only [step, hp]
        exact .nil
      · intro later h
        rw [run_singleton] at h
        simp only [step, hp] at h
        cases h

/-- A run asks in turn what its tokens pose. -/
theorem asksInTurn_tokens (tokens : List Token) (stack : List Float) :
    AsksInTurn env ctx Poses (tokens.filter Token.poses) stack tokens := by
  induction tokens generalizing stack with
  | nil => exact asksInTurn_nil stack
  | cons token tokens ih =>
    have h := (asksInTurn_singleton token stack).append fun later _ => ih later
    rwa [← List.filter_append] at h

/-! ## The last question -/

theorem checked_of_isNaN {name : String} {operands : List Float} {v : Float} (hv : v.isNaN = true)
    (h : ∀ a ∈ operands, a.isNaN = false) :
    checked name operands v = .error (.mathError name) := by
  rw [checked_eq_settled, Tree.settled, if_pos ⟨hv, h⟩]

/-- A task that asks a question comes to the answer, settled if the question has an operation. -/
theorem perform_of_call (hc : task.call? = some call) :
    task.perform env ctx =
      (Call.answer env ctx call).bind fun v =>
        match call.operation? with
        | some name => checked name call.arguments v
        | none => .ok v := by
  cases task with
  | constant value => cases hc
  | lookup name =>
    cases hc
    simp only [Task.perform, Call.answer, Call.operation?]
    cases env name <;> rfl
  | function f arguments =>
    cases hc
    rfl
  | unary op a =>
    cases op with
    | factorial =>
      cases hc
      rfl
    | bar => cases hc
    | negate => cases hc
  | binary op a b => cases hc

/-- A question that fails makes the task fail that asks it. -/
theorem perform_of_fails (hc : task.call? = some call) (h : Call.Fails env ctx call e) :
    task.perform env ctx = .error e := by
  rw [perform_of_call hc]
  cases h with
  | answer h =>
    rw [h]
    rfl
  | nan hname h hv hargs =>
    rw [h, hname]
    exact checked_of_isNaN hv hargs

theorem step_of_fails (hc : (step env ctx stack token).1 = some call)
    (h : Call.Fails env ctx call e) : (step env ctx stack token).2 = .error e := by
  cases hp : plan token stack with
  | none =>
    simp only [step, hp] at hc
    cases hc
  | some r =>
    obtain ⟨task, below⟩ := r
    rw [step_call hp] at hc
    rw [step_eq env ctx hp, perform_of_fails hc h]
    rfl

/-- A question comes from the first token, and is the last one if that fails, or from a later
token. -/
theorem calls_cons_eq_append {before after : List Call}
    (h : calls env ctx stack (token :: tokens) = before ++ call :: after) :
    ((step env ctx stack token).1 = some call ∧
      ∀ e, (step env ctx stack token).2 = .error e → after = []) ∨
    ∃ reached before', (step env ctx stack token).2 = .ok reached ∧
      calls env ctx reached tokens = before' ++ call :: after := by
  cases hs : (step env ctx stack token).2 with
  | error e =>
    rw [calls_cons_of_error env ctx tokens hs] at h
    cases hc : (step env ctx stack token).1 with
    | none =>
      rw [hc] at h
      cases before <;> cases h
    | some c =>
      rw [hc] at h
      cases before with
      | nil =>
        cases h
        exact .inl ⟨rfl, fun _ _ => rfl⟩
      | cons b before => cases before <;> cases h
  | ok reached =>
    rw [calls_cons_of_ok env ctx tokens hs] at h
    cases hc : (step env ctx stack token).1 with
    | none =>
      rw [hc] at h
      exact .inr ⟨reached, before, rfl, h⟩
    | some c =>
      rw [hc] at h
      cases before with
      | nil =>
        cases h
        exact .inl ⟨rfl, nofun⟩
      | cons b before => exact .inr ⟨reached, before, rfl, (List.cons.inj h).2⟩

/-- After a question that fails no other is asked, and the run fails. -/
theorem last_of_fails {before after : List Call}
    (h : calls env ctx stack tokens = before ++ call :: after) (hf : Call.Fails env ctx call e) :
    after = [] ∧ run env ctx stack tokens = .error e := by
  induction tokens generalizing stack before with
  | nil => cases before <;> cases h
  | cons token tokens ih =>
    rw [run_cons]
    obtain ⟨hc, hlast⟩ | ⟨reached, before', hs, h⟩ := calls_cons_eq_append h
    · have hs := step_of_fails hc hf
      rw [hs]
      exact ⟨hlast e hs, rfl⟩
    · rw [hs]
      exact ih h

/-! ## Trees -/

theorem meaning_of_run (h : run env ctx stack t.postorder = .ok later) :
    ∃ v, t.meaning env ctx = .ok v ∧ later = v :: stack := by
  rw [run_postorder] at h
  cases hv : t.meaning env ctx with
  | error e =>
    rw [hv] at h
    cases h
  | ok v =>
    rw [hv] at h
    cases h
    exact ⟨v, rfl, rfl⟩

/-- Over the postorder of a tree, a run asks in turn what the nodes pose. -/
theorem asksInTurn_postorder (t : Tree) (stack : List Float) :
    AsksInTurn env ctx (PosedBy env ctx) t.posing stack t.postorder := by
  induction t generalizing stack with
  | number value => exact asksInTurn_of_silent rfl stack
  | unknown => exact asksInTurn_of_call rfl rfl .unknown
  | call f arguments ih =>
    have hparts : AsksInTurn env ctx (PosedBy env ctx)
        ((List.finRange f.arity).flatMap fun i => (arguments i).posing) stack
        ((List.finRange f.arity).flatMap fun i => (arguments i).postorder) :=
      asksInTurn_flatMap ih stack
    refine hparts.append fun later hr => ?_
    rw [run_flatMap env ctx _ _ _ fun i => run_postorder env ctx (arguments i)] at hr
    cases hv : (List.finRange f.arity).mapM fun i => (arguments i).meaning env ctx with
    | error e =>
      rw [hv] at hr
      cases hr
    | ok values =>
      rw [hv] at hr
      cases hr
      have hall := forall₂_of_mapM hv
      have hl : values.length = f.arity := by rw [← hall.length_eq, List.length_finRange]
      exact asksInTurn_of_call (plan_function f values stack hl) rfl (.call hall)
  | unary op operand ih =>
    refine (ih stack).append fun later hr => ?_
    obtain ⟨a, ha, rfl⟩ := meaning_of_run hr
    cases op with
    | factorial => exact asksInTurn_of_call rfl rfl (.factorial ha)
    | bar => exact asksInTurn_of_silent rfl _
    | negate => exact asksInTurn_of_silent rfl _
  | binary op left right ihl ihr =>
    have hop : (Token.operator (.binary op)).poses = false := rfl
    have h := ((ihl stack).append fun later _ => ihr later).append
      fun later _ => asksInTurn_of_silent hop later
    rwa [List.append_nil] at h

/-- What a run asks. Its questions are posed by the tokens that pose one, taken in their order up to
some place, or all of them if there is a value; a call is asked with as many arguments as the
function takes. A question that fails, or whose answer is refused, is the last one, and there is no
value. Over the postorder of a tree the questions are posed by its nodes in the same way, and each
is about the values of the children of its node, from left to right. -/
theorem calls_in_turn (env : Environment) (ctx : Context) (tokens : List Token) :
    (∃ asked, asked <+: tokens.filter Token.poses ∧
      List.Forall₂ Poses asked (calls env ctx [] tokens) ∧
      ∀ v, value env ctx tokens = .ok v → asked = tokens.filter Token.poses) ∧
    (∀ before call after e, calls env ctx [] tokens = before ++ call :: after →
      Call.Fails env ctx call e → after = [] ∧ value env ctx tokens = .error e) ∧
    ∀ t : Tree, tokens = t.postorder → ∃ asked, asked <+: t.posing ∧
      List.Forall₂ (PosedBy env ctx) asked (calls env ctx [] tokens) ∧
      ∀ v, value env ctx tokens = .ok v → asked = t.posing := by
  refine ⟨?_, ?_, ?_⟩
  · obtain ⟨asked, hprefix, hall, hwhole⟩ : AsksInTurn env ctx Poses _ [] tokens :=
      asksInTurn_tokens tokens []
    exact ⟨asked, hprefix, hall, fun v hv => hwhole [v] (value_eq_ok hv)⟩
  · intro before call after e h hf
    obtain ⟨ha, hr⟩ := last_of_fails h hf
    exact ⟨ha, value_of_run_error hr⟩
  · rintro t rfl
    obtain ⟨asked, hprefix, hall, hwhole⟩ : AsksInTurn env ctx (PosedBy env ctx) _ [] t.postorder :=
      asksInTurn_postorder t []
    exact ⟨asked, hprefix, hall, fun v hv => hwhole [v] (value_eq_ok hv)⟩

/-- The statement above for `sin(x!) + x` where every function is NaN, so that the second `x` is
never asked for, and for `x!`. -/
theorem calls_in_turn_refused :
    let ctx : Context := ⟨fun _ _ => .ok Binary64.nan, Combinatorics.factorial⟩
    let env := Environment.constant 3
    let factorial : List Token := [.unknown, .operator (.unary .factorial)]
    let tokens := factorial ++ [.function .sin, .unknown, .operator (.binary .plus)]
    let t : Tree := .binary .plus (.call .sin fun _ => .unary .factorial .unknown) .unknown
    (calls env ctx [] tokens = [.lookup "x", .factorial 3] ++ .function .sin [6] :: [] ∧
      Call.Fails env ctx (.function .sin [6]) (.mathError "sin") ∧
      value env ctx tokens = .error (.mathError "sin")) ∧
    (tokens = t.postorder ∧ ∃ asked, asked <+: t.posing ∧
      List.Forall₂ (PosedBy env ctx) asked (calls env ctx [] tokens)) ∧
    (value env ctx factorial = .ok 6 ∧
      List.Forall₂ Poses factorial (calls env ctx [] factorial)) := by
  intro ctx env factorial tokens t
  have hcalls : calls env ctx [] tokens =
      [.lookup "x", .factorial 3] ++ .function .sin [6] :: [] := by decide +kernel
  have hargs : ∀ a ∈ ([6] : List Float), a.isNaN = false := by decide +kernel
  have hfails : Call.Fails env ctx (.function .sin [6]) (.mathError "sin") :=
    .nan rfl rfl rfl hargs
  have htree : tokens = t.postorder := rfl
  have hvalue : value env ctx factorial = .ok 6 := by decide +kernel
  obtain ⟨-, hlast, hposed⟩ := calls_in_turn env ctx tokens
  obtain ⟨asked, hprefix, hall, -⟩ := hposed t htree
  obtain ⟨⟨whole, -, hwhole, hall'⟩, -⟩ := calls_in_turn env ctx factorial
  obtain rfl : whole = factorial := hall' 6 hvalue
  exact ⟨⟨hcalls, hfails, (hlast _ _ _ _ hcalls hfails).2⟩, ⟨htree, asked, hprefix, hall⟩,
    hvalue, hwhole⟩

end Evaluation

end Calculator
