import Calculator.Token

/-!
# Expression trees and the shape of postfix tokens

A call has exactly as many subtrees as its function takes arguments, so a tree has no missing
and no spare operands. Counting values over postfix tokens tells which lists are written from
a tree: every token finds its operands, and one value is left at the end.
-/

namespace Calculator

inductive Tree where
  | number (value : Float)
  | unknown
  | call (f : Builtin) (arguments : Fin f.arity → Tree)
  | unary (op : UnaryOperator) (operand : Tree)
  | binary (op : BinaryOperator) (left right : Tree)

/-- Operands before what applies to them, and siblings from left to right. -/
def Tree.postorder : Tree → List Token
  | number value => [.number value]
  | unknown => [.unknown]
  | call f arguments =>
    (List.finRange f.arity).flatMap (fun i => (arguments i).postorder) ++ [.function f]
  | unary op operand => operand.postorder ++ [.operator (.unary op)]
  | binary op left right => left.postorder ++ right.postorder ++ [.operator (.binary op)]

theorem Builtin.arity_pos (f : Builtin) : 0 < f.arity := by
  cases f <;> decide

/-- How many values the token takes; punctuation stands for no operation. -/
def Token.operands? : Token → Option Nat
  | number _ | unknown => some 0
  | function f => some f.arity
  | operator (.unary _) => some 1
  | operator (.binary _) => some 2
  | operator _ => none

theorem map_get_finRange {α : Type} {n : Nat} (items : List α) (h : items.length = n) :
    (List.finRange n).map (fun i => items.get (i.cast h.symm)) = items := by
  refine List.ext_getElem ?_ ?_
  · simp [h]
  · intro i _ _
    simp

namespace Postfix

/-- The number of values after the tokens, starting with `depth` of them. -/
def depthAfter (depth : Nat) : List Token → Option Nat
  | [] => some depth
  | token :: tokens =>
    match token.operands? with
    | some k => if k ≤ depth then depthAfter (depth - k + 1) tokens else none
    | none => none

/-- Every token finds its operands, and exactly one value is left. -/
def WellFormed (tokens : List Token) : Prop := depthAfter 0 tokens = some 1

instance (tokens : List Token) : Decidable (WellFormed tokens) :=
  inferInstanceAs (Decidable (_ = _))

@[simp] theorem depthAfter_nil (depth : Nat) : depthAfter depth [] = some depth := rfl

theorem depthAfter_cons {token : Token} {k depth : Nat} (tokens : List Token)
    (h : token.operands? = some k) (hk : k ≤ depth) :
    depthAfter depth (token :: tokens) = depthAfter (depth - k + 1) tokens := by
  simp only [depthAfter, h, if_pos hk]

/-- The count cannot continue past a token only if it finds its operands there. -/
theorem depthAfter_cons_eq_some {token : Token} {tokens : List Token} {depth final : Nat}
    (h : depthAfter depth (token :: tokens) = some final) :
    ∃ k, token.operands? = some k ∧ k ≤ depth ∧
      depthAfter (depth - k + 1) tokens = some final := by
  simp only [depthAfter] at h
  cases ho : token.operands? with
  | none => simp [ho] at h
  | some k =>
    simp only [ho] at h
    by_cases hk : k ≤ depth
    · rw [if_pos hk] at h
      exact ⟨k, rfl, hk, h⟩
    · rw [if_neg hk] at h
      cases h

/-- Subtrees next to one another leave a value each, if every one of them does. -/
theorem depthAfter_flatMap {α : Type} (items : List α) (written : α → List Token)
    (h : ∀ a depth rest, depthAfter depth (written a ++ rest) = depthAfter (depth + 1) rest)
    (depth : Nat) (rest : List Token) :
    depthAfter depth (items.flatMap written ++ rest) =
      depthAfter (depth + items.length) rest := by
  induction items generalizing depth with
  | nil => rfl
  | cons a items ih =>
    have he : depth + 1 + items.length = depth + (a :: items).length := by
      simp only [List.length_cons]
      omega
    rw [List.flatMap_cons, List.append_assoc, h, ih, he]

/-- A tree leaves one value more, over any depth and before any tokens. -/
theorem depthAfter_postorder (t : Tree) (depth : Nat) (rest : List Token) :
    depthAfter depth (t.postorder ++ rest) = depthAfter (depth + 1) rest := by
  induction t generalizing depth rest with
  | number value => exact depthAfter_cons rest rfl (Nat.zero_le depth)
  | unknown => exact depthAfter_cons rest rfl (Nat.zero_le depth)
  | call f arguments ih =>
    have hk : f.arity ≤ depth + f.arity := by omega
    rw [Tree.postorder, List.append_assoc, depthAfter_flatMap _ _ (fun i => ih i),
      List.length_finRange, List.singleton_append, depthAfter_cons rest rfl hk]
    congr 1
    omega
  | unary op operand ih =>
    rw [Tree.postorder, List.append_assoc, ih, List.singleton_append,
      depthAfter_cons rest rfl (by omega)]
    congr 1
  | binary op left right ihl ihr =>
    rw [Tree.postorder, List.append_assoc, List.append_assoc, ihl, ihr, List.singleton_append,
      depthAfter_cons rest rfl (by omega)]
    congr 1

theorem wellFormed_postorder (t : Tree) : WellFormed t.postorder := by
  have h := depthAfter_postorder t 0 []
  rw [List.append_nil] at h
  exact h

/-- A token behind as many trees as it takes values makes one of them. -/
theorem exists_tree {token : Token} {operands : List Tree}
    (h : token.operands? = some operands.length) :
    ∃ t : Tree, t.postorder = operands.flatMap Tree.postorder ++ [token] := by
  cases token with
  | number value =>
    cases List.length_eq_zero_iff.mp (Option.some.inj h).symm
    exact ⟨.number value, rfl⟩
  | unknown =>
    cases List.length_eq_zero_iff.mp (Option.some.inj h).symm
    exact ⟨.unknown, rfl⟩
  | function f =>
    have hn : operands.length = f.arity := (Option.some.inj h).symm
    refine ⟨.call f fun i => operands.get (i.cast hn.symm), ?_⟩
    rw [Tree.postorder, ← List.flatMap_map, map_get_finRange operands hn]
  | operator op =>
    cases op with
    | unary op =>
      obtain ⟨t, rfl⟩ := List.length_eq_one_iff.mp (Option.some.inj h).symm
      exact ⟨.unary op t, by simp [Tree.postorder]⟩
    | binary op =>
      match operands, h with
      | [t, u], _ => exact ⟨.binary op t u, by simp [Tree.postorder]⟩
    | openParen => cases h
    | closeParen => cases h
    | comma => cases h

/-- The tokens turn a row of trees, one for each value, into another. -/
theorem exists_forest {tokens : List Token} {forest : List Tree} {final : Nat}
    (h : depthAfter forest.length tokens = some final) :
    ∃ grown : List Tree, grown.length = final ∧
      grown.flatMap Tree.postorder = forest.flatMap Tree.postorder ++ tokens := by
  induction tokens generalizing forest with
  | nil => exact ⟨forest, Option.some.inj h, (List.append_nil _).symm⟩
  | cons token tokens ih =>
    obtain ⟨k, ho, hk, hrest⟩ := depthAfter_cons_eq_some h
    obtain ⟨below, operands, rfl, hn⟩ : ∃ below operands, forest = below ++ operands ∧
        operands.length = k :=
      ⟨_, _, (List.take_append_drop (forest.length - k) forest).symm, by
        rw [List.length_drop]
        omega⟩
    obtain ⟨t, ht⟩ := exists_tree (ho.trans (congrArg some hn.symm))
    have hlength : (below ++ operands).length - k + 1 = (below ++ [t]).length := by
      simp only [List.length_append, List.length_singleton, hn]
      omega
    obtain ⟨grown, hg, hp⟩ := ih (hlength ▸ hrest)
    refine ⟨grown, hg, ?_⟩
    rw [hp, List.flatMap_append, List.flatMap_append, List.flatMap_singleton, ht]
    simp only [List.append_assoc, List.singleton_append]

/-- The well-formed lists are those that are written from a tree. -/
theorem wellFormed_iff (tokens : List Token) :
    WellFormed tokens ↔ ∃ t : Tree, t.postorder = tokens := by
  constructor
  · intro h
    obtain ⟨grown, hg, hp⟩ := @exists_forest tokens [] 1 h
    obtain ⟨t, rfl⟩ := List.length_eq_one_iff.mp hg
    exact ⟨t, by simpa using hp⟩
  · rintro ⟨t, rfl⟩
    exact wellFormed_postorder t

end Postfix

end Calculator
