import Calculator.Root

/-!
# The course of a search

A search runs through a row of places, each of which follows from the one before by what is
measured there. It ends at the first place where nothing can be measured or from which the step is
short, whichever comes first, and otherwise after all its iterations.
-/

namespace Calculator.Root

/-- What an iteration measures: the value at a place, and the one a little ahead of it. -/
structure Measure where
  value : Float
  ahead : Float

namespace Measure

def slope (m : Measure) : Float := (m.ahead - m.value) / difference

/-- The slope is too small for a step of Newton's method. -/
def IsFlat (m : Measure) : Prop := m.slope.abs < flat

instance (m : Measure) : Decidable m.IsFlat := inferInstanceAs (Decidable (_ < _))

/-- The place to go to from `x`. -/
def next (m : Measure) (x : Float) : Float :=
  if m.IsFlat then x + 1 else x - m.value / m.slope

theorem next_of_isFlat {m : Measure} (h : m.IsFlat) (x : Float) : m.next x = x + 1 := if_pos h

theorem next_of_steep {m : Measure} (h : ¬ m.IsFlat) (x : Float) :
    m.next x = x - m.value / m.slope := if_neg h

/-- The step from `x` ends the search. -/
structure Converges (m : Measure) (x : Float) : Prop where
  steep : ¬ m.IsFlat
  short : (m.next x - x).abs < tolerance

end Measure

/-- Measures a function at `x`, first there and then ahead of it. -/
def measure (f : Float → Except EvaluationError Float) (x : Float) :
    Except EvaluationError Measure := do
  let value ← f x
  let ahead ← f (x + difference)
  return ⟨value, ahead⟩

/-- The place that is reached from `x` in `k` iterations; nothing if one of them cannot be
measured. -/
def place? (f : Float → Except EvaluationError Float) (x : Float) : (k : Nat) → Option Float
  | 0 => some x
  | k + 1 => do
    let y ← place? f x k
    let m ← (measure f y).toOption
    return m.next y

/-- Iteration `k` begins at `y`, and measures `m` there. -/
structure Measures (f : Float → Except EvaluationError Float) (x : Float) (k : Nat) (y : Float)
    (m : Measure) : Prop where
  place : place? f x k = some y
  measure : measure f y = .ok m

/-- Iteration `k` ends the search with a short step. -/
def ConvergesAt (f : Float → Except EvaluationError Float) (x : Float) (k : Nat) : Prop :=
  ∃ y m, Measures f x k y m ∧ m.Converges y

/-- Iteration `k` does not end the search. -/
def Passes (f : Float → Except EvaluationError Float) (x : Float) (k : Nat) : Prop :=
  ∃ y m, Measures f x k y m ∧ ¬ m.Converges y

/-- Iteration `k` ends the search, and this is the outcome. -/
inductive Stops (f : Float → Except EvaluationError Float) (x : Float) (k : Nat) :
    Except SolveError Float → Prop where
  | converged {y : Float} {m : Measure} (hm : Measures f x k y m) (hc : m.Converges y) :
    Stops f x k (.ok (roundToPlaces (m.next y)))
  | failed {y : Float} {e : EvaluationError} (hp : place? f x k = some y)
    (he : measure f y = .error e) : Stops f x k (.error (.evaluation e))

/-- Iteration `k` is the first one that ends the search, and this is the outcome. -/
structure StopsFirst (f : Float → Except EvaluationError Float) (x : Float) (k : Nat)
    (outcome : Except SolveError Float) : Prop where
  passes : ∀ j < k, Passes f x j
  stops : Stops f x k outcome

variable {f g : Float → Except EvaluationError Float} {x y : Float} {m : Measure} {j k : Nat}
  {outcome other : Except SolveError Float} {e : EvaluationError}

/-! ## One iteration -/

theorem measure_of_error (h : f x = .error e) : measure f x = .error e := by
  rw [measure, h]
  rfl

theorem measure_of_ahead {v : Float} (h : f x = .ok v) (ha : f (x + difference) = .error e) :
    measure f x = .error e := by
  rw [measure, h, ha]
  rfl

theorem measure_of_ok {v w : Float} (h : f x = .ok v) (ha : f (x + difference) = .ok w) :
    measure f x = .ok ⟨v, w⟩ := by
  rw [measure, h, ha]
  rfl

theorem measure_eq_ok (h : measure f x = .ok m) :
    f x = .ok m.value ∧ f (x + difference) = .ok m.ahead := by
  cases hv : f x with
  | error e => cases (measure_of_error hv).symm.trans h
  | ok v =>
    cases ha : f (x + difference) with
    | error e => cases (measure_of_ahead hv ha).symm.trans h
    | ok w =>
      cases (measure_of_ok hv ha).symm.trans h
      exact ⟨rfl, rfl⟩

/-- The failure is the one that comes first. -/
theorem measure_eq_error_iff :
    measure f x = .error e ↔
      f x = .error e ∨ ∃ v, f x = .ok v ∧ f (x + difference) = .error e := by
  constructor
  · intro h
    cases hv : f x with
    | error e' =>
      cases (measure_of_error hv).symm.trans h
      exact .inl rfl
    | ok v =>
      cases ha : f (x + difference) with
      | error e' =>
        cases (measure_of_ahead hv ha).symm.trans h
        exact .inr ⟨v, rfl, rfl⟩
      | ok w => cases (measure_of_ok hv ha).symm.trans h
  · rintro (hv | ⟨v, hv, ha⟩)
    · exact measure_of_error hv
    · exact measure_of_ahead hv ha

/-- The places at which one iteration evaluates the function. -/
def probesAt (f : Float → Except EvaluationError Float) (x : Float) : List Float :=
  match f x with
  | .error _ => [x]
  | .ok _ => [x, x + difference]

/-- The event of an iteration at `x`. -/
def Measure.event (m : Measure) (done : Nat) (x : Float) : Event :=
  if m.IsFlat then .stationary x done else .iterated done x m.value m.slope (m.next x)

theorem Measure.event_of_isFlat (h : m.IsFlat) (k : Nat) (x : Float) :
    m.event k x = .stationary x k := if_pos h

theorem Measure.event_of_steep (h : ¬ m.IsFlat) (k : Nat) (x : Float) :
    m.event k x = .iterated k x m.value m.slope (m.next x) := if_neg h

/-- An iteration that cannot be measured ends the search with the failure. -/
theorem searchFrom_of_error (h : measure f x = .error e) (done left : Nat) :
    searchFrom f done (left + 1) x = ⟨probesAt f x, [], .error (.evaluation e)⟩ := by
  rw [searchFrom, probesAt]
  obtain hv | ⟨v, hv, ha⟩ := measure_eq_error_iff.mp h
  · rw [hv]
  · simp only [hv, ha]

theorem probesAt_of_ok (h : measure f x = .ok m) : probesAt f x = [x, x + difference] := by
  rw [probesAt, (measure_eq_ok h).1]

/-- An iteration with a short step ends the search. -/
theorem searchFrom_of_converges (h : measure f x = .ok m) (hc : m.Converges x) (done left : Nat) :
    searchFrom f done (left + 1) x =
      ⟨probesAt f x, [m.event done x, .converged (m.next x) (done + 1)],
        .ok (roundToPlaces (m.next x))⟩ := by
  have hflat : ¬ m.slope.abs < flat := hc.steep
  have hshort := hc.short
  rw [Measure.event_of_steep hc.steep, probesAt_of_ok h]
  rw [Measure.next_of_steep hc.steep] at hshort ⊢
  obtain ⟨hv, ha⟩ := measure_eq_ok h
  simp only [searchFrom, hv, ha]
  rw [Measure.slope] at hflat hshort ⊢
  rw [if_neg hflat, if_pos hshort]

/-- After any other iteration that can be measured, the search goes on from the next place. -/
theorem searchFrom_of_passes (h : measure f x = .ok m) (hc : ¬ m.Converges x) (done left : Nat) :
    searchFrom f done (left + 1) x =
      (searchFrom f (done + 1) left (m.next x)).after (probesAt f x) (m.event done x) := by
  rw [probesAt_of_ok h]
  obtain ⟨hv, ha⟩ := measure_eq_ok h
  simp only [searchFrom, hv, ha]
  by_cases hflat : m.IsFlat
  · rw [Measure.event_of_isFlat hflat, Measure.next_of_isFlat hflat]
    exact if_pos hflat
  · have hshort : ¬ (m.next x - x).abs < tolerance := fun hs => hc ⟨hflat, hs⟩
    rw [Measure.event_of_steep hflat]
    rw [Measure.next_of_steep hflat] at hshort ⊢
    exact (if_neg hflat).trans (if_neg hshort)

/-! ## The row of places -/

/-- A place is also reached from the second one, in one iteration less. -/
theorem place?_succ (hm : measure f x = .ok m) (k : Nat) :
    place? f x (k + 1) = place? f (m.next x) k := by
  induction k with
  | zero => simp [place?, hm, Except.toOption]
  | succ k ih => rw [place?, ih, place?]

theorem measures_succ_iff (hm : measure f x = .ok m) {m' : Measure} :
    Measures f x (k + 1) y m' ↔ Measures f (m.next x) k y m' := by
  refine ⟨fun h => ⟨?_, h.measure⟩, fun h => ⟨?_, h.measure⟩⟩
  · rw [← place?_succ hm]
    exact h.place
  · rw [place?_succ hm]
    exact h.place

theorem passes_succ_iff (hm : measure f x = .ok m) :
    Passes f x (k + 1) ↔ Passes f (m.next x) k := by
  simp only [Passes, measures_succ_iff hm]

theorem Stops.succ (hm : measure f x = .ok m) (h : Stops f (m.next x) k outcome) :
    Stops f x (k + 1) outcome := by
  cases h with
  | converged hm' hc => exact .converged ((measures_succ_iff hm).mpr hm') hc
  | failed hp he =>
    rw [← place?_succ hm] at hp
    exact .failed hp he

/-- Before a place that is reached, everything could be measured. -/
theorem exists_measures (h : place? f x k = some y) (hj : j < k) :
    ∃ z m, Measures f x j z m := by
  induction k generalizing y with
  | zero => exact absurd hj (Nat.not_lt_zero j)
  | succ k ih =>
    cases hp : place? f x k with
    | none => simp [place?, hp] at h
    | some z =>
      obtain hlt | rfl := Nat.lt_succ_iff_lt_or_eq.mp hj
      · exact ih hp hlt
      · cases hm : measure f z with
        | error e => simp [place?, hp, hm, Except.toOption] at h
        | ok m => exact ⟨z, m, hp, hm⟩

theorem Measures.unique {z : Float} {m' : Measure} (h : Measures f x k y m)
    (h' : Measures f x k z m') : y = z ∧ m = m' := by
  obtain rfl : y = z := Option.some.inj (h.place.symm.trans h'.place)
  exact ⟨rfl, Except.ok.inj (h.measure.symm.trans h'.measure)⟩

theorem Passes.not_convergesAt (h : Passes f x k) : ¬ ConvergesAt f x k := by
  rintro ⟨z, m', h', hc⟩
  obtain ⟨y, m, hm, hn⟩ := h
  obtain ⟨rfl, rfl⟩ := hm.unique h'
  exact hn hc

/-- Before a place that is reached, iterations passed unless they converged. -/
theorem passes_of_not_convergesAt (h : place? f x k = some y)
    (hfirst : ∀ j < k, ¬ ConvergesAt f x j) : ∀ j < k, Passes f x j := by
  intro j hj
  obtain ⟨z, m, hm⟩ := exists_measures h hj
  exact ⟨z, m, hm, fun hc => hfirst j hj ⟨z, m, hm, hc⟩⟩

/-! ## The end of a search -/

theorem Passes.not_stops (h : Passes f x k) : ¬ Stops f x k outcome := by
  intro hs
  cases hs with
  | converged hm hc => exact h.not_convergesAt ⟨_, _, hm, hc⟩
  | failed hp he =>
    obtain ⟨y, m, hm, -⟩ := h
    cases hm.place.symm.trans hp
    cases hm.measure.symm.trans he

theorem Stops.unique (h : Stops f x k outcome) (h' : Stops f x k other) : outcome = other := by
  cases h with
  | converged hm hc =>
    cases h' with
    | converged hm' hc' =>
      obtain ⟨rfl, rfl⟩ := hm.unique hm'
      rfl
    | failed hp he =>
      cases hm.place.symm.trans hp
      cases hm.measure.symm.trans he
  | failed hp he =>
    cases h' with
    | converged hm hc =>
      cases hm.place.symm.trans hp
      cases hm.measure.symm.trans he
    | failed hp' he' =>
      cases hp.symm.trans hp'
      cases he.symm.trans he'
      rfl

theorem StopsFirst.unique (h : StopsFirst f x j outcome) (h' : StopsFirst f x k other) :
    outcome = other := by
  obtain hlt | rfl | hlt := Nat.lt_trichotomy j k
  · exact absurd h.stops (h'.passes j hlt).not_stops
  · exact h.stops.unique h'.stops
  · exact absurd h'.stops (h.passes k hlt).not_stops

theorem StopsFirst.succ (hm : measure f x = .ok m) (hc : ¬ m.Converges x)
    (h : StopsFirst f (m.next x) k outcome) : StopsFirst f x (k + 1) outcome where
  stops := h.stops.succ hm
  passes
    | 0, _ => ⟨x, m, ⟨rfl, hm⟩, hc⟩
    | j + 1, hj => (passes_succ_iff hm).mpr (h.passes j (Nat.lt_of_succ_lt_succ hj))

theorem stopsFirst_zero (h : Stops f x 0 outcome) : StopsFirst f x 0 outcome :=
  ⟨fun j hj => absurd hj (Nat.not_lt_zero j), h⟩

/-- A search stops at the first iteration that ends it, or passes through all of them. -/
theorem searchFrom_cases (f : Float → Except EvaluationError Float) (done left : Nat) (x : Float) :
    (∃ k < left, StopsFirst f x k (searchFrom f done left x).outcome) ∨
      (∀ k < left, Passes f x k) ∧
        (searchFrom f done left x).outcome = .error .noSolutionFound := by
  induction left generalizing done x with
  | zero => exact .inr ⟨fun k hk => absurd hk (Nat.not_lt_zero k), rfl⟩
  | succ left ih =>
    cases hm : measure f x with
    | error e =>
      rw [searchFrom_of_error hm]
      exact .inl ⟨0, Nat.succ_pos left, stopsFirst_zero (.failed rfl hm)⟩
    | ok m =>
      by_cases hc : m.Converges x
      · rw [searchFrom_of_converges hm hc]
        exact .inl ⟨0, Nat.succ_pos left, stopsFirst_zero (.converged ⟨rfl, hm⟩ hc)⟩
      · rw [searchFrom_of_passes hm hc, Report.after]
        obtain ⟨k, hk, hstop⟩ | ⟨hall, hnone⟩ := ih (done + 1) (m.next x)
        · exact .inl ⟨k + 1, Nat.succ_lt_succ hk, hstop.succ hm hc⟩
        · refine .inr ⟨?_, hnone⟩
          rintro (- | k) hk
          · exact ⟨x, m, ⟨rfl, hm⟩, hc⟩
          · exact (passes_succ_iff hm).mpr (hall k (Nat.lt_of_succ_lt_succ hk))

/-- The outcome of a search is that of the first iteration that ends it. -/
theorem searchFrom_eq_iff {done left : Nat} (hne : outcome ≠ .error .noSolutionFound) :
    (searchFrom f done left x).outcome = outcome ↔ ∃ k < left, StopsFirst f x k outcome := by
  constructor
  · rintro rfl
    obtain h | ⟨-, h⟩ := searchFrom_cases f done left x
    · exact h
    · exact absurd h hne
  · rintro ⟨k, hk, hs⟩
    obtain ⟨j, hj, h⟩ | ⟨hall, -⟩ := searchFrom_cases f done left x
    · exact h.unique hs
    · exact absurd hs.stops (hall k hk).not_stops

theorem searchFrom_eq_none_iff {done left : Nat} :
    (searchFrom f done left x).outcome = .error .noSolutionFound ↔ ∀ k < left, Passes f x k := by
  constructor
  · intro h
    obtain ⟨k, -, hs⟩ | ⟨hall, -⟩ := searchFrom_cases f done left x
    · rw [h] at hs
      nomatch hs.stops
    · exact hall
  · intro hall
    obtain ⟨k, hk, hs⟩ | ⟨-, h⟩ := searchFrom_cases f done left x
    · exact absurd hs.stops (hall k hk).not_stops
    · exact h

theorem stopsFirst_ok_iff {r : Float} :
    StopsFirst f x k (.ok r) ↔
      ∃ y m, Measures f x k y m ∧ m.Converges y ∧ (∀ j < k, ¬ ConvergesAt f x j) ∧
        r = roundToPlaces (m.next y) := by
  constructor
  · rintro ⟨hall, hs⟩
    cases hs with
    | converged hm hc => exact ⟨_, _, hm, hc, fun j hj => (hall j hj).not_convergesAt, rfl⟩
  · rintro ⟨y, m, hm, hc, hfirst, rfl⟩
    exact ⟨passes_of_not_convergesAt hm.place hfirst, .converged hm hc⟩

theorem stopsFirst_error_iff :
    StopsFirst f x k (.error (.evaluation e)) ↔
      ∃ y, place? f x k = some y ∧ measure f y = .error e ∧ ∀ j < k, ¬ ConvergesAt f x j := by
  constructor
  · rintro ⟨hall, hs⟩
    cases hs with
    | failed hp he => exact ⟨_, hp, he, fun j hj => (hall j hj).not_convergesAt⟩
  · rintro ⟨y, hp, he, hfirst⟩
    exact ⟨passes_of_not_convergesAt hp hfirst, .failed hp he⟩

/-! ## What is evaluated -/

/-- An iteration evaluates the function at two places at most. -/
theorem length_probesAt (f : Float → Except EvaluationError Float) (x : Float) :
    (probesAt f x).length ≤ 2 := by
  unfold probesAt
  split <;> simp

theorem length_probes_searchFrom (f : Float → Except EvaluationError Float) (done left : Nat)
    (x : Float) : (searchFrom f done left x).probes.length ≤ 2 * left := by
  induction left generalizing done x with
  | zero => exact Nat.le_refl 0
  | succ left ih =>
    have hfirst := length_probesAt f x
    cases hm : measure f x with
    | error e =>
      rw [searchFrom_of_error hm]
      simp only
      omega
    | ok m =>
      by_cases hc : m.Converges x
      · rw [searchFrom_of_converges hm hc]
        simp only
        omega
      · rw [searchFrom_of_passes hm hc, Report.after]
        have hlater := ih (done + 1) (m.next x)
        simp only [List.length_append]
        omega

/-- An iteration depends on the function only at the places where it is evaluated. -/
theorem measure_congr (h : ∀ y ∈ probesAt f x, g y = f y) :
    measure g x = measure f x ∧ probesAt g x = probesAt f x := by
  have hx : g x = f x := by
    refine h x ?_
    unfold probesAt
    split <;> simp
  cases hv : f x with
  | error e => simp [probesAt, hx, hv, measure_of_error]
  | ok v =>
    have ha : g (x + difference) = f (x + difference) := h _ (by simp [probesAt, hv])
    simp [probesAt, measure, hx, hv, ha]

/-- A search depends on the function only at the places where it is evaluated. -/
theorem searchFrom_congr {done left : Nat}
    (h : ∀ y ∈ (searchFrom f done left x).probes, g y = f y) :
    searchFrom g done left x = searchFrom f done left x := by
  induction left generalizing done x with
  | zero => rfl
  | succ left ih =>
    cases hm : measure f x with
    | error e =>
      rw [searchFrom_of_error hm] at h ⊢
      obtain ⟨hg, hp⟩ := measure_congr h
      rw [searchFrom_of_error (hg.trans hm), hp]
    | ok m =>
      by_cases hc : m.Converges x
      · rw [searchFrom_of_converges hm hc] at h ⊢
        obtain ⟨hg, hp⟩ := measure_congr h
        rw [searchFrom_of_converges (hg.trans hm) hc, hp]
      · rw [searchFrom_of_passes hm hc] at h ⊢
        obtain ⟨hfirst, hlater⟩ := List.forall_mem_append.mp h
        obtain ⟨hg, hp⟩ := measure_congr hfirst
        rw [searchFrom_of_passes (hg.trans hm) hc, hp, ih hlater]

end Calculator.Root

namespace Calculator

open Root

/-- The outcome of a search for a root, in terms of the row of places that begins at the initial
guess. The root is where the first short step leads to, rounded; a failure is that of the first
iteration that cannot be measured, where the place itself is tried before the one ahead of it; and
without either, nothing is found. The function is evaluated at no more than two places for each
iteration, and only its values there matter. From a flat place the search moves on by one, and this
is no short step. -/
theorem findRoot_outcome (ctx : Context) (expression : Expression) :
    let f := expression.evaluateAt ctx
    let report := expression.findRoot ctx
    (∀ r, report.outcome = .ok r ↔
      ∃ k < maxIterations, ∃ x m, Measures f initialGuess k x m ∧ m.Converges x ∧
        (∀ j < k, ¬ ConvergesAt f initialGuess j) ∧ r = roundToPlaces (m.next x)) ∧
    (∀ e, report.outcome = .error (.evaluation e) ↔
      ∃ k < maxIterations, ∃ x, place? f initialGuess k = some x ∧
        (f x = .error e ∨ ∃ v, f x = .ok v ∧ f (x + difference) = .error e) ∧
        ∀ j < k, ¬ ConvergesAt f initialGuess j) ∧
    (report.outcome = .error .noSolutionFound ↔
      ∀ k < maxIterations, ∃ x m, Measures f initialGuess k x m ∧ ¬ m.Converges x) ∧
    report.probes.length ≤ 2 * maxIterations ∧
    (∀ g, (∀ x ∈ report.probes, g x = f x) → search g = report) ∧
    ∀ k x m, Measures f initialGuess k x m → m.IsFlat →
      place? f initialGuess (k + 1) = some (x + 1) ∧ ¬ ConvergesAt f initialGuess k := by
  intro f report
  refine ⟨?_, ?_, searchFrom_eq_none_iff, length_probes_searchFrom f 0 maxIterations _,
    fun g h => searchFrom_congr h, ?_⟩
  · intro r
    rw [← exists_congr fun k => and_congr_right' stopsFirst_ok_iff]
    exact searchFrom_eq_iff nofun
  · intro e
    simp only [← measure_eq_error_iff]
    rw [← exists_congr fun k => and_congr_right' stopsFirst_error_iff]
    exact searchFrom_eq_iff nofun
  · intro k x m hm hflat
    have hnext : m.next x = x + 1 := if_pos hflat
    refine ⟨?_, ?_⟩
    · simp [place?, hm.place, hm.measure, Except.toOption, hnext]
    · rintro ⟨y, m', hm', hc⟩
      obtain ⟨rfl, rfl⟩ := hm.unique hm'
      exact hc.steep hflat

end Calculator
