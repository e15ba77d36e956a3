import Calculator.Builtin

/-!
# The longest name

Of the functions in a table whose names a text starts with, the search finds the one with the
longest name. There is only one: two names of one length that start the same text are the same. So
the order of the table does not matter.
-/

namespace Calculator.Builtin

/-- The better of the function found so far and the next one. -/
def better (best : Option Builtin) (f : Builtin) : Option Builtin :=
  match best with
  | some g => if g.nameLength ≤ f.nameLength then some f else some g
  | none => some f

theorem longestIn_eq (table : List Builtin) (text : List Char) :
    longestIn table text = (table.filter (startsWith text)).foldl better none := rfl

variable {table : List Builtin} {text : List Char} {f g : Builtin}

theorem better_isSome (best : Option Builtin) (f : Builtin) : (better best f).isSome = true := by
  cases best with
  | none => rfl
  | some g =>
    simp only [better]
    split <;> rfl

/-- The better one is one of the two, and not shorter than either. -/
theorem better_eq_some {best : Option Builtin} (h : better best f = some g) :
    (g = f ∨ best = some g) ∧ f.nameLength ≤ g.nameLength ∧
      ∀ b, best = some b → b.nameLength ≤ g.nameLength := by
  cases best with
  | none =>
    cases h
    exact ⟨.inl rfl, Nat.le_refl _, by simp⟩
  | some b =>
    simp only [better] at h
    split at h
    · rename_i hle
      cases h
      exact ⟨.inl rfl, Nat.le_refl _, by simpa using hle⟩
    · rename_i hlt
      cases h
      exact ⟨.inr rfl, by omega, by simp⟩

/-- What a search finds is one of the candidates or what it began with, and none of them is
longer. -/
theorem foldl_better {candidates : List Builtin} {best : Option Builtin}
    (h : candidates.foldl better best = some f) :
    (f ∈ candidates ∨ best = some f) ∧ (∀ g ∈ candidates, g.nameLength ≤ f.nameLength) ∧
      ∀ b, best = some b → b.nameLength ≤ f.nameLength := by
  induction candidates generalizing best with
  | nil =>
    cases h
    simp
  | cons g candidates ih =>
    obtain ⟨hmem, hmax, hbest⟩ := ih h
    obtain ⟨c, hc⟩ := Option.isSome_iff_exists.mp (better_isSome best g)
    obtain ⟨hwhich, hg, hb⟩ := better_eq_some hc
    have hcf := hbest c hc
    refine ⟨?_, ?_, ?_⟩
    · obtain hm | he := hmem
      · exact .inl (List.mem_cons_of_mem g hm)
      · cases hc.symm.trans he
        obtain rfl | he := hwhich
        · exact .inl List.mem_cons_self
        · exact .inr he
    · simp only [List.mem_cons, forall_eq_or_imp]
      exact ⟨by omega, hmax⟩
    · intro b he
      have := hb b he
      omega

theorem foldl_better_eq_none {candidates : List Builtin} {best : Option Builtin} :
    candidates.foldl better best = none ↔ candidates = [] ∧ best = none := by
  induction candidates generalizing best with
  | nil => simp
  | cons g candidates ih =>
    have hsome := better_isSome best g
    simp only [List.foldl_cons, ih, reduceCtorEq, false_and, iff_false, not_and]
    rintro - hnone
    simp [hnone] at hsome

/-- Two names of one length that start the same text are the same. -/
theorem eq_of_startsWith (hf : startsWith text f = true) (hg : startsWith text g = true)
    (h : f.nameLength = g.nameLength) : f = g := by
  have hf := List.prefix_iff_eq_take.mp (List.isPrefixOf_iff_prefix.mp hf)
  have hg := List.prefix_iff_eq_take.mp (List.isPrefixOf_iff_prefix.mp hg)
  refine name_inj (String.toList_inj.mp ?_)
  rw [hf, hg]
  exact congrArg text.take h

/-- The search finds the candidate that is longer than every other one. -/
theorem longestIn_eq_some :
    longestIn table text = some f ↔
      f ∈ table ∧ startsWith text f = true ∧
        ∀ g ∈ table, startsWith text g = true → g ≠ f → g.nameLength < f.nameLength := by
  have hfound : ∀ {f}, longestIn table text = some f →
      f ∈ table ∧ startsWith text f = true ∧
        ∀ g ∈ table, startsWith text g = true → g ≠ f → g.nameLength < f.nameLength := by
    intro f h
    obtain ⟨hmem, hmax, -⟩ := foldl_better h
    obtain ⟨hm, hs⟩ := List.mem_filter.mp (hmem.resolve_right nofun)
    refine ⟨hm, hs, ?_⟩
    intro g hg hgs hne
    have hle := hmax g (List.mem_filter.mpr ⟨hg, hgs⟩)
    have hlen : g.nameLength ≠ f.nameLength := mt (eq_of_startsWith hgs hs) hne
    omega
  refine ⟨hfound, ?_⟩
  rintro ⟨hm, hs, hmax⟩
  cases h : longestIn table text with
  | none =>
    have hnone := (foldl_better_eq_none.mp h).1
    cases hnone ▸ List.mem_filter.mpr ⟨hm, hs⟩
  | some g =>
    obtain ⟨hg, hgs, hgmax⟩ := hfound h
    by_cases hne : g = f
    · rw [hne]
    · have h₁ := hmax g hg hgs hne
      have h₂ := hgmax f hm hs (Ne.symm hne)
      omega

theorem longestIn_eq_none :
    longestIn table text = none ↔ ∀ g ∈ table, startsWith text g = false := by
  rw [longestIn_eq, foldl_better_eq_none]
  simp

theorem longestAt_eq_some :
    longestAt text = some f ↔ startsWith text f = true ∧
      ∀ g, startsWith text g = true → g ≠ f → g.nameLength < f.nameLength := by
  rw [longestAt, longestIn_eq_some]
  simp [mem_all]

theorem longestAt_eq_none : longestAt text = none ↔ ∀ g, startsWith text g = false := by
  rw [longestAt, longestIn_eq_none]
  simp [mem_all]

/-! ## Any order -/

theorem startsWith_iff : startsWith text f = true ↔ f.name.toList <+: text :=
  List.isPrefixOf_iff_prefix

/-- A name is as long in bytes as in characters. -/
theorem utf8ByteSize_name (f : Builtin) : f.name.utf8ByteSize = f.nameLength := by
  cases f <;> rfl

/-- What is found depends on the functions in the table, not on how they are listed. -/
theorem longestIn_congr {other : List Builtin} (h : ∀ g, g ∈ table ↔ g ∈ other)
    (text : List Char) : longestIn table text = longestIn other text := by
  refine Option.ext fun f => ?_
  rw [longestIn_eq_some, longestIn_eq_some, h]
  simp only [h]

/-- The search finds the function whose name starts the text and is longer than every other name
that does, and it finds none only if no name does. So no two names compete, and a table of the same
functions in another order has the same answers. -/
theorem longestIn_perm (text : List Char) :
    (∀ f, longestAt text = some f ↔
      f.name.toList <+: text ∧
        ∀ g, g.name.toList <+: text → g ≠ f → g.name.utf8ByteSize < f.name.utf8ByteSize) ∧
    (longestAt text = none ↔ ∀ f : Builtin, ¬ f.name.toList <+: text) ∧
    ∀ table, table.Perm all → longestIn table text = longestAt text := by
  refine ⟨fun f => ?_, ?_, fun table h => ?_⟩
  · rw [longestAt_eq_some]
    simp only [startsWith_iff, utf8ByteSize_name]
  · rw [longestAt_eq_none]
    simp only [← Bool.not_eq_true, startsWith_iff]
  · exact longestIn_congr (fun _ => h.mem_iff) text

/-- The statement above for a text that starts with two names, read from the end of the table. -/
theorem longestIn_perm_cosecant :
    let text := "cosecant".toList
    all.reverse.Perm all ∧ cos.name.toList <+: text ∧ longestIn all.reverse text = some cosec := by
  intro text
  have hperm : all.reverse.Perm all := List.reverse_perm all
  obtain ⟨hfound, -, horder⟩ := longestIn_perm text
  refine ⟨hperm, by decide, (horder _ hperm).trans ((hfound cosec).mpr ⟨by decide, ?_⟩)⟩
  intro g
  cases g <;> decide

end Calculator.Builtin
