import Calculator.Proofs.Search

/-!
# The log of a search

Each iteration that is completed leaves one event, with its number, the place where it began and
what it measured there. The next one begins where that event says. At the end there is one more event
unless the search broke off, and an iteration that breaks it off leaves none.
-/

namespace Calculator.Root

/-- The events of the iterations completed so far, and the place where the search is after them. -/
inductive Logged (f : Float → Except EvaluationError Float) : List Event → Float → Prop where
  | start : Logged f [] initialGuess
  | stationary {steps : List Event} {x : Float} {m : Measure} (h : Logged f steps x)
    (hm : measure f x = .ok m) (hflat : m.IsFlat) :
    Logged f (steps ++ [.stationary x steps.length]) (x + 1)
  | iterated {steps : List Event} {x : Float} {m : Measure} (h : Logged f steps x)
    (hm : measure f x = .ok m) (hsteep : ¬ m.IsFlat) :
    Logged f (steps ++ [.iterated steps.length x m.value m.slope (m.next x)]) (m.next x)

/-- The events are those of the iterations of the search, one for each, and the search is at `x`
after them. -/
structure Traces (f : Float → Except EvaluationError Float) (steps : List Event) (x : Float) :
    Prop where
  place : place? f initialGuess steps.length = some x
  event : ∀ k < steps.length, ∃ y m, Measures f initialGuess k y m ∧
    steps[k]? = some (m.event k y)

variable {f : Float → Except EvaluationError Float} {steps : List Event} {x : Float} {m : Measure}

/-! ## Completed iterations -/

/-- One more iteration is completed. -/
theorem Logged.next (h : Logged f steps x) (hm : measure f x = .ok m) :
    Logged f (steps ++ [m.event steps.length x]) (m.next x) := by
  by_cases hflat : m.IsFlat
  · rw [Measure.event_of_isFlat hflat, Measure.next_of_isFlat hflat]
    exact h.stationary hm hflat
  · rw [Measure.event_of_steep hflat]
    exact h.iterated hm hflat

theorem Traces.next (h : Traces f steps x) (hm : measure f x = .ok m) :
    Traces f (steps ++ [m.event steps.length x]) (m.next x) where
  place := by
    rw [List.length_append, List.length_singleton]
    simp [place?, h.place, hm, Except.toOption]
  event k hk := by
    rw [List.length_append, List.length_singleton] at hk
    obtain hlt | rfl := Nat.lt_succ_iff_lt_or_eq.mp hk
    · obtain ⟨y, m', hm', hget⟩ := h.event k hlt
      exact ⟨y, m', hm', by rw [List.getElem?_append_left hlt, hget]⟩
    · exact ⟨x, m, ⟨h.place, hm⟩, List.getElem?_concat_length⟩

end Calculator.Root

namespace Calculator

open Root

end Calculator
