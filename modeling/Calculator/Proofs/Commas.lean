import Mathlib.Logic.Basic
import Calculator.Proofs.Delimiters

/-!
# Where commas may stand

A comma separates the arguments of a call, so it should stand directly in the parentheses of one.
What the conversion looks at is less: it asks for parentheses and not for what stands in front of
them. Commas are read here by an automaton that tells the parentheses of a call from others and does
not stop at commas. A list converts exactly if all else matches and every comma stands directly in
parentheses of either kind.
-/

namespace Calculator.Postfix

/-- The groups, with the parentheses of a call apart from others. -/
inductive Enclosure where
  | call | parens | bars
  deriving DecidableEq, Repr

/-- What opens the group. -/
def Enclosure.delimiter : Enclosure → Delimiter
  | call | parens => .paren
  | bars => .bar

/-- Is it the name of a function? -/
def isFunction : Token → Bool
  | .function _ => true
  | _ => false

/-- Ends the innermost group, which must be one that `d` opened. -/
def leave (d : Delimiter) : List Enclosure → Option (List Enclosure)
  | g :: groups => if g.delimiter = d then some groups else none
  | [] => none

/-- The open groups after the token. Parentheses are those of a call if a name stands directly in
front of them. A comma changes nothing. -/
def surround (completed named : Bool) (groups : List Enclosure) : Token → Option (List Enclosure)
  | .operator .openParen => some ((if named then .call else .parens) :: groups)
  | .operator .closeParen => leave .paren groups
  | .operator (.unary .bar) => if completed then leave .bar groups else some (.bars :: groups)
  | _ => some groups

/-- The open groups after the tokens, if every bracket and every bar finds its partner. -/
def surroundings (completed named : Bool) (groups : List Enclosure) :
    List Token → Option (List Enclosure)
  | [] => some groups
  | token :: tokens =>
    (surround completed named groups token).bind fun later =>
      surroundings (completes completed token) (isFunction token) later tokens

/-- The innermost group that is open after the tokens. -/
def innermost (tokens : List Token) : Option Enclosure :=
  (surroundings false false [] tokens).bind List.head?

/-- Every comma of the tokens stands directly in parentheses. -/
def CommasInside (completed named : Bool) (groups : List Enclosure) (tokens : List Token) : Prop :=
  ∀ before after, tokens = before ++ .operator .comma :: after →
    ∃ g, (surroundings completed named groups before).bind List.head? = some g ∧
      g.delimiter = .paren

variable {completed named : Bool} {groups later : List Enclosure} {token : Token}
  {tokens : List Token}

@[simp] theorem surroundings_nil : surroundings completed named groups [] = some groups := rfl

theorem surroundings_cons (h : surround completed named groups token = some later)
    (tokens : List Token) :
    surroundings completed named groups (token :: tokens) =
      surroundings (completes completed token) (isFunction token) later tokens := by
  rw [surroundings, h]
  rfl

theorem surround_comma : surround completed named groups (.operator .comma) = some groups := rfl

theorem not_inside_iff (found : Option Enclosure) :
    (¬ ∃ g, found = some g ∧ g.delimiter = .paren) ↔
      found ≠ some .call ∧ found ≠ some .parens := by
  cases found with
  | none => simp
  | some g => cases g <;> simp [Enclosure.delimiter]

/-! ## One token -/

theorem close_map (d : Delimiter) (groups : List Enclosure) :
    close d (groups.map Enclosure.delimiter) =
      (leave d groups).map (List.map Enclosure.delimiter) := by
  cases groups with
  | nil => rfl
  | cons g groups =>
    by_cases hd : g.delimiter = d <;> simp [close, leave, hd]

/-- The kinds of parentheses apart, the groups are those of the other automaton. -/
theorem nest_map (named : Bool) (groups : List Enclosure) (h : token ≠ .operator .comma) :
    nest completed (groups.map Enclosure.delimiter) token =
      (surround completed named groups token).map (List.map Enclosure.delimiter) := by
  cases token with
  | number value => rfl
  | unknown => rfl
  | function f => rfl
  | operator op =>
    cases op with
    | unary op =>
      cases op with
      | factorial => rfl
      | bar =>
        cases completed with
        | true => exact close_map .bar groups
        | false => rfl
      | negate => rfl
    | binary op => rfl
    | openParen => cases named <;> rfl
    | closeParen => exact close_map .paren groups
    | comma => exact absurd rfl h

/-- A comma needs parentheses, of a call or not. -/
theorem nest_comma (completed : Bool) (groups : List Enclosure) :
    (∃ g, groups.head? = some g ∧ g.delimiter = .paren) ∧
      nest completed (groups.map Enclosure.delimiter) (.operator .comma) =
        some (groups.map Enclosure.delimiter) ∨
    (¬ ∃ g, groups.head? = some g ∧ g.delimiter = .paren) ∧
      nest completed (groups.map Enclosure.delimiter) (.operator .comma) = none := by
  cases groups with
  | nil => exact .inr ⟨by simp, rfl⟩
  | cons g groups =>
    by_cases hg : g.delimiter = .paren
    · exact .inl ⟨⟨g, rfl, hg⟩, by simp [nest, close, hg]⟩
    · exact .inr ⟨by simp [hg], by simp [nest, close, hg]⟩

/-! ## Lists of tokens -/

theorem commasInside_nil : CommasInside completed named groups [] := by
  intro before after h
  simp at h

theorem commasInside_cons (h : surround completed named groups token = some later) :
    CommasInside completed named groups (token :: tokens) ↔
      (token = .operator .comma → ∃ g, groups.head? = some g ∧ g.delimiter = .paren) ∧
      CommasInside (completes completed token) (isFunction token) later tokens := by
  constructor
  · intro hall
    refine ⟨?_, ?_⟩
    · rintro rfl
      exact hall [] tokens rfl
    · rintro before after rfl
      have hg := hall (token :: before) after rfl
      rwa [surroundings_cons h] at hg
  · rintro ⟨hfirst, hrest⟩ before after hsplit
    cases before with
    | nil =>
      cases hsplit
      exact hfirst rfl
    | cons t before =>
      cases hsplit
      rw [surroundings_cons h]
      exact hrest before after rfl

/-- The delimiters of a list match exactly if they do where commas are left out of account, and
every comma stands directly in parentheses. -/
theorem nestings_eq_some_iff (completed named : Bool) (groups : List Enclosure)
    (tokens : List Token) (found : List Delimiter) :
    nestings completed (groups.map Enclosure.delimiter) tokens = some found ↔
      (∃ later, surroundings completed named groups tokens = some later ∧
        later.map Enclosure.delimiter = found) ∧
      CommasInside completed named groups tokens := by
  induction tokens generalizing completed named groups with
  | nil => simp [nestings, commasInside_nil]
  | cons token tokens ih =>
    rw [nestings]
    by_cases ht : token = .operator .comma
    · subst ht
      rw [surroundings_cons surround_comma, commasInside_cons surround_comma]
      obtain ⟨hg, hn⟩ | ⟨hg, hn⟩ := nest_comma completed groups
      · rw [hn, Option.bind_some, ih _ (isFunction (.operator .comma))]
        simp [hg]
      · rw [hn]
        simp [hg]
    · rw [nest_map named groups ht]
      cases hs : surround completed named groups token with
      | none =>
        simp [surroundings, hs]
      | some later =>
        rw [surroundings_cons hs, commasInside_cons hs, Option.map_some, Option.bind_some,
          ih _ (isFunction token)]
        simp [ht]

theorem matched_iff (tokens : List Token) :
    Matched tokens ↔
      surroundings false false [] tokens = some [] ∧ CommasInside false false [] tokens := by
  have h := nestings_eq_some_iff false false [] tokens []
  rw [List.map_nil] at h
  rw [Matched, h]
  simp

theorem ofInfix_eq_unbalanced_iff (tokens : List Token) :
    ofInfix tokens = .error .unbalancedParentheses ↔ ¬ Matched tokens := by
  obtain ⟨rfl, h⟩ | ⟨hn, hm, p, h⟩ | ⟨hn, hm, h⟩ := ofInfix_cases tokens
  · simp [h, Matched, nestings]
  · simp [h, hm]
  · simp [h, hm]

/-- What commas do to a conversion. It fails for want of a partner exactly if a comma stands
outside all groups or directly between bars, or something else than a comma has no partner. So it
makes no difference to a comma directly in parentheses whether these belong to a call. -/
theorem ofInfix_commas (tokens : List Token) :
    ofInfix tokens = .error .unbalancedParentheses ↔
      (∃ before after, tokens = before ++ .operator .comma :: after ∧
        innermost before ≠ some .call ∧ innermost before ≠ some .parens) ∨
      surroundings false false [] tokens ≠ some [] := by
  have hcommas : ¬ CommasInside false false [] tokens ↔
      ∃ before after, tokens = before ++ .operator .comma :: after ∧
        innermost before ≠ some .call ∧ innermost before ≠ some .parens := by
    simp only [CommasInside, not_forall, not_inside_iff, exists_prop]
    rfl
  rw [ofInfix_eq_unbalanced_iff, matched_iff, not_and_or, hcommas, or_comm]

/-- Not every comma outside of calls is refused: `(1, 2)` is converted, and so is `nCr((1, 2))`,
where the call takes its arguments out of the parentheses inside. -/
theorem ofInfix_comma_in_parens :
    let before : List Token := [.operator .openParen, .number 1]
    let tokens := before ++ .operator .comma :: [.number 2, .operator .closeParen]
    let call : List Token := .function .nCr :: .operator .openParen :: before
    (innermost before = some .parens ∧ ofInfix tokens = .ok [.number 1, .number 2]) ∧
    (innermost call = some .parens ∧
      ofInfix (call ++ .operator .comma ::
        [.number 2, .operator .closeParen, .operator .closeParen]) =
        .ok [.number 1, .number 2, .function .nCr]) :=
  ⟨⟨rfl, rfl⟩, ⟨rfl, rfl⟩⟩

end Calculator.Postfix
