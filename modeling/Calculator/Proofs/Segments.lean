import Mathlib.Data.List.Chain
import Mathlib.Data.List.Intervals
import Mathlib.Data.List.Nodup
import Calculator.Builtin.Meaning
import Calculator.Curve

/-!
# Segments and breaks

A curve is drawn from place to place. What is complete at any time are the maximal runs of places
with a point that a break has ended, and the segment in progress is the run since the last break.
Completing that run at a break and completing it at the end of the range is the same step, so at
the end the segments are all maximal runs, and every place is in one of them or is a break.
-/

namespace Calculator.Curve

/-- The numbers from the first on, up to before the stop. -/
structure Run where
  first : Nat
  stop : Nat

def Run.numbers (run : Run) : List Nat := List.Ico run.first run.stop

/-- The run stops at a number that is not good, before the later run begins. -/
def Breaks (good : Nat → Bool) (run later : Run) : Prop :=
  good run.stop = false ∧ run.stop < later.first

/-- The maximal runs of good numbers below `n`. -/
structure MaximalRuns (good : Nat → Bool) (n : Nat) (runs : List Run) : Prop where
  /-- the good numbers, each of them once and in order -/
  numbers : runs.flatMap Run.numbers = (List.range n).filter good
  nonempty : ∀ run ∈ runs, run.first < run.stop
  /-- a number that is not good lies between neighbours -/
  broken : runs.IsChain (Breaks good)

/-- The runs that are complete before `k`, and where the run in progress began, which is at `k`
itself if there is none. -/
structure Progress (good : Nat → Bool) (k : Nat) (runs : List Run) (since : Nat) : Prop where
  numbers : runs.flatMap Run.numbers ++ List.Ico since k = (List.range k).filter good
  nonempty : ∀ run ∈ runs, run.first < run.stop
  broken : (runs ++ [Run.mk since k]).IsChain (Breaks good)
  le : since ≤ k

/-- The complete runs with the one in progress, if there is one. -/
def completed (runs : List Run) (since k : Nat) : List Run :=
  if since < k then runs ++ [⟨since, k⟩] else runs

variable {good : Nat → Bool} {k n since i : Nat} {runs : List Run}

theorem isChain_concat {run : Run} :
    (runs ++ [run]).IsChain (Breaks good) ↔
      runs.IsChain (Breaks good) ∧ ∀ last ∈ runs.getLast?, Breaks good last run := by
  simp [List.isChain_append]

theorem progress_zero : Progress good 0 [] 0 := ⟨rfl, by simp, by simp, le_rfl⟩

namespace Progress

/-- A good number continues the run in progress. -/
theorem succ_of_good (h : Progress good k runs since) (hk : good k = true) :
    Progress good (k + 1) runs since where
  numbers := by
    rw [List.Ico.succ_top h.le, ← List.append_assoc, h.numbers, List.range_succ,
      List.filter_append, List.filter_cons_of_pos hk, List.filter_nil]
  nonempty := h.nonempty
  broken := by
    -- a break looks at where the later run begins, which has not moved
    obtain ⟨hruns, hlast⟩ := isChain_concat.mp h.broken
    exact isChain_concat.mpr ⟨hruns, fun last hm => hlast last hm⟩
  le := Nat.le_succ_of_le h.le

/-- The complete runs and the one in progress are the maximal runs. -/
theorem maximalRuns (h : Progress good k runs since) :
    MaximalRuns good k (completed runs since k) := by
  have hnumbers := h.numbers
  rw [completed]
  split_ifs with hs
  · refine ⟨?_, ?_, h.broken⟩
    · simpa [List.flatMap_append, Run.numbers] using hnumbers
    · intro run hm
      obtain hm | hm := List.mem_append.mp hm
      · exact h.nonempty run hm
      · obtain rfl := List.mem_singleton.mp hm
        exact hs
  · rw [List.Ico.eq_nil_of_le (not_lt.mp hs), List.append_nil] at hnumbers
    exact ⟨hnumbers, h.nonempty, (isChain_concat.mp h.broken).1⟩

/-- A number that is not good completes the run in progress, and no run is in progress then. -/
theorem succ_of_bad (h : Progress good k runs since) (hk : good k = false) :
    Progress good (k + 1) (completed runs since k) (k + 1) where
  numbers := by
    rw [List.Ico.self_empty, List.append_nil, h.maximalRuns.numbers, List.range_succ,
      List.filter_append, List.filter_cons_of_neg (by simp [hk]), List.filter_nil, List.append_nil]
  nonempty := h.maximalRuns.nonempty
  broken := by
    refine isChain_concat.mpr ⟨h.maximalRuns.broken, ?_⟩
    intro last hm
    rw [completed] at hm
    split_ifs at hm with hs
    · obtain rfl : ⟨since, k⟩ = last := by simpa using hm
      exact ⟨hk, Nat.lt_succ_self k⟩
    · obtain ⟨hg, hlt⟩ := (isChain_concat.mp h.broken).2 last hm
      exact ⟨hg, hlt.trans_le (Nat.le_succ_of_le h.le)⟩
  le := le_rfl

theorem good_of_mem (h : Progress good k runs since) (hi : i ∈ List.Ico since k) :
    good i = true := by
  have hm : i ∈ (List.range k).filter good := by
    rw [← h.numbers]
    exact List.mem_append_right _ hi
  exact (List.mem_filter.mp hm).2

end Progress

/-- A number is in as many runs as it is listed. -/
theorem countP_runs (runs : List Run) (i : Nat) :
    runs.countP (i ∈ ·.numbers) = (runs.flatMap Run.numbers).count i := by
  induction runs with
  | nil => rfl
  | cons run runs ih =>
    have hnodup : run.numbers.Nodup := List.Ico.nodup run.first run.stop
    rw [List.countP_cons, List.flatMap_cons, List.count_append, ih, Nat.add_comm]
    by_cases hi : i ∈ run.numbers
    · rw [List.count_eq_one_of_mem hnodup hi, if_pos (decide_eq_true hi)]
    · rw [List.count_eq_zero_of_not_mem hi, if_neg (by simpa using hi)]

theorem count_filter_range (p : Nat → Bool) (hi : i < n) :
    ((List.range n).filter p).count i = if p i then 1 else 0 := by
  have hnodup : (List.range n).Nodup := List.nodup_range
  split_ifs with hp
  · exact List.count_eq_one_of_mem (hnodup.filter p) (by simp [hi, hp])
  · exact List.count_eq_zero_of_not_mem (by simp [hp])

/-- A number is in one of the runs, or it is not good. -/
theorem MaximalRuns.count (h : MaximalRuns good n runs) (hi : i < n) :
    runs.countP (i ∈ ·.numbers) + ((List.range n).filter (!good ·)).count i = 1 := by
  rw [countP_runs, h.numbers, count_filter_range _ hi, count_filter_range _ hi]
  cases good i <;> rfl

/-! ## The curve -/

/-- The points of a row of samples that a run has. -/
def points (samples : Nat → Sample) (run : Run) : List Point :=
  run.numbers.filterMap fun i => (samples i).point?

/-- Does the sample have a point? -/
def isGood (samples : Nat → Sample) (i : Nat) : Bool := (samples i).point?.isSome

/-- What is drawn after `k` samples, in terms of runs. -/
structure Draws (samples : Nat → Sample) (k : Nat) (runs : List Run) (since : Nat)
    (drawing : Drawing) : Prop where
  progress : Progress (isGood samples) k runs since
  complete : drawing.complete.reverse = runs.map (points samples)
  current : drawing.current.reverse = points samples ⟨since, k⟩
  breaks : drawing.breaks.reverse =
    ((List.range k).filter (!isGood samples ·)).map
      fun i => .broken (samples i).x (samples i).result

variable {samples : Nat → Sample} {drawing : Drawing}

theorem points_ne_nil {run : Run} (h : run.first < run.stop)
    (hgood : isGood samples run.first = true) : points samples run ≠ [] := by
  obtain ⟨point, hp⟩ := Option.isSome_iff_exists.mp hgood
  have hm : point ∈ points samples run :=
    List.mem_filterMap.mpr ⟨run.first, List.Ico.mem.mpr ⟨le_rfl, h⟩, hp⟩
  exact List.ne_nil_of_mem hm

namespace Draws

/-- The segment in progress has a point exactly if there is a run in progress. -/
theorem isEmpty_current (h : Draws samples k runs since drawing) :
    drawing.current.isEmpty = false ↔ since < k := by
  rw [← List.isEmpty_reverse, h.current]
  constructor
  · intro he
    by_contra hs
    have hn : points samples ⟨since, k⟩ = [] := by
      simp [points, Run.numbers, List.Ico.eq_nil_of_le (not_lt.mp hs)]
    rw [hn] at he
    cases he
  · intro hs
    have hmem : since ∈ List.Ico since k := List.Ico.mem.mpr ⟨le_rfl, hs⟩
    simpa using points_ne_nil hs (h.progress.good_of_mem hmem)

/-- The segments drawn so far are those of the complete runs and of the one in progress. -/
theorem segments (h : Draws samples k runs since drawing) :
    drawing.segments.reverse = (completed runs since k).map (points samples) := by
  rw [Drawing.segments, completed]
  by_cases hs : since < k
  · rw [h.isEmpty_current.mpr hs, if_pos hs]
    simp [h.complete, h.current]
  · have he : drawing.current.isEmpty = true :=
      Bool.eq_true_of_not_eq_false (mt h.isEmpty_current.mp hs)
    rw [he, if_neg hs]
    exact h.complete

/-- One more sample continues the run in progress, or completes it and is a break. -/
theorem extend (h : Draws samples k runs since drawing) :
    ∃ runs' since', Draws samples (k + 1) runs' since' (drawing.extend (samples k)) := by
  have hrange : (List.range (k + 1)).filter (!isGood samples ·) =
      (List.range k).filter (!isGood samples ·) ++ if isGood samples k then [] else [k] := by
    cases hk : isGood samples k <;> simp [List.range_succ, List.filter_append, hk]
  cases hp : (samples k).point? with
  | some point =>
    have hk : isGood samples k = true := by simp [isGood, hp]
    refine ⟨runs, since, h.progress.succ_of_good hk, ?_, ?_, ?_⟩
    · simp [Drawing.extend, hp, h.complete]
    · simp only [Drawing.extend, hp, List.reverse_cons, h.current, points, Run.numbers,
        List.Ico.succ_top h.progress.le, List.filterMap_append]
      simp [hp]
    · simp [Drawing.extend, hp, h.breaks, hrange, hk]
  | none =>
    have hk : isGood samples k = false := by simp [isGood, hp]
    refine ⟨completed runs since k, k + 1, h.progress.succ_of_bad hk, ?_, ?_, ?_⟩
    · simp [Drawing.extend, hp, h.segments]
    · simp [Drawing.extend, hp, points, Run.numbers]
    · simp [Drawing.extend, hp, h.breaks, hrange, hk]

end Draws

theorem exists_draws (samples : Nat → Sample) (n : Nat) :
    ∃ runs since, Draws samples n runs since (.ofSamples ((List.range n).map samples)) := by
  induction n with
  | zero => exact ⟨[], 0, progress_zero, rfl, rfl, rfl⟩
  | succ n ih =>
    obtain ⟨runs, since, h⟩ := ih
    have hsucc : Drawing.ofSamples ((List.range (n + 1)).map samples) =
        (Drawing.ofSamples ((List.range n).map samples)).extend (samples n) := by
      simp [Drawing.ofSamples, List.range_succ]
    rw [hsucc]
    exact h.extend

/-- The points of the segments are those of all samples that have one. -/
theorem MaximalRuns.flatten (h : MaximalRuns (isGood samples) n runs) :
    (runs.map (points samples)).flatten = (List.range n).filterMap fun i => (samples i).point? := by
  have hpoints : (runs.map (points samples)).flatten =
      (runs.flatMap Run.numbers).filterMap fun i => (samples i).point? := by
    rw [← List.flatMap_def, List.filterMap_flatMap]
    rfl
  rw [hpoints, h.numbers, List.filterMap_filter]
  refine List.filterMap_congr fun i _ => ?_
  cases hp : (samples i).point? <;> simp [isGood, hp]

theorem MaximalRuns.nil_notMem (h : MaximalRuns (isGood samples) n runs) :
    [] ∉ runs.map (points samples) := by
  intro hm
  obtain ⟨run, hrun, he⟩ := List.mem_map.mp hm
  have hlt := h.nonempty run hrun
  have hmem : run.first ∈ (List.range n).filter (isGood samples) := by
    rw [← h.numbers]
    exact List.mem_flatMap.mpr ⟨run, hrun, List.Ico.mem.mpr ⟨le_rfl, hlt⟩⟩
  exact points_ne_nil hlt (List.mem_filter.mp hmem).2 he

/-! ## Ranges -/

namespace Range

/-- The range goes forward between finite ends, in fewer than `maxSamples` whole steps. -/
structure Admitted (range : Range) : Prop where
  positive : 0 < range.step
  start : range.start.isFinite = true
  stop : range.stop.isFinite = true
  forward : ¬ range.stop < range.start
  few : range.steps < .ofNat maxSamples

/-- How many places a range has that is admitted. -/
def count (range : Range) : Nat := Binary64.toNat range.steps + 1

variable {range : Range}

theorem isForward_iff : range.isForward = true ↔
    0 < range.step ∧ range.start.isFinite = true ∧ range.stop.isFinite = true ∧
      ¬ range.stop < range.start := by
  simp [isForward, and_assoc]

theorem extent_of_admitted (h : range.Admitted) : range.extent = .places range.count := by
  have hf := isForward_iff.mpr ⟨h.positive, h.start, h.stop, h.forward⟩
  rw [extent, hf, if_pos h.few]
  rfl

theorem extent_of_not_admitted (h : ¬ range.Admitted) :
    range.extent = .empty ∨ range.extent = .tooMany := by
  rw [extent]
  cases hf : range.isForward with
  | false => exact .inl rfl
  | true =>
    obtain ⟨hp, hs, he, hn⟩ := isForward_iff.mp hf
    refine .inr ((if_neg Bool.false_ne_true).trans (if_neg ?_))
    exact fun hfew => h ⟨hp, hs, he, hn, hfew⟩

theorem places_of_extent {n : Nat} (h : range.extent = .places n) :
    range.Admitted ∧ n = range.count := by
  by_cases ha : range.Admitted
  · rw [extent_of_admitted ha] at h
    exact ⟨ha, (Extent.places.inj h).symm⟩
  · obtain he | he := extent_of_not_admitted ha <;> rw [he] at h <;> cases h

end Range

variable {f : Float → Except EvaluationError Float} {range : Range}

/-- The sample that is taken after `i` steps. -/
def sampleAt (f : Float → Except EvaluationError Float) (range : Range) (i : Nat) : Sample :=
  ⟨range.place i, f (range.place i)⟩

theorem samples_of_admitted (h : range.Admitted) :
    (sample f range).samples = (List.range range.count).map (sampleAt f range) := by
  rw [sample, Range.places, Range.extent_of_admitted h]
  exact List.map_map

theorem samples_of_not_admitted (h : ¬ range.Admitted) : (sample f range).samples = [] := by
  rw [sample, Range.places]
  obtain he | he := Range.extent_of_not_admitted h <;> rw [he] <;> rfl

/-- The segments have the points of all samples, in order. -/
theorem flatten_segments : (sample f range).segments.flatten =
    (sample f range).samples.filterMap Sample.point? := by
  by_cases h : range.Admitted
  · obtain ⟨runs, since, hdraws⟩ := exists_draws (sampleAt f range) range.count
    rw [← samples_of_admitted h] at hdraws
    have hsegments : (sample f range).segments = _ := hdraws.segments
    rw [hsegments, hdraws.progress.maximalRuns.flatten, samples_of_admitted h, List.filterMap_map]
    rfl
  · rw [Survey.segments, Survey.drawing, samples_of_not_admitted h]
    rfl

theorem events_of_admitted (h : range.Admitted) :
    (sample f range).events = (sample f range).drawing.breaks.reverse := by
  have he : (sample f range).range.extent = .places range.count := Range.extent_of_admitted h
  rw [Survey.events, he]

/-- A range that is not admitted is nowhere broken, as nothing is drawn. -/
theorem broken_notMem_events (h : ¬ range.Admitted) (x : Float)
    (result : Except EvaluationError Float) : .broken x result ∉ (sample f range).events := by
  have hdrawing : (sample f range).drawing = .blank := by
    rw [Survey.drawing, samples_of_not_admitted h]
    rfl
  have hrange : (sample f range).range = range := rfl
  rw [Survey.events, hrange, hdrawing]
  obtain he | he := Range.extent_of_not_admitted h <;> rw [he] <;> simp [Drawing.blank]

end Calculator.Curve

namespace Calculator

open Curve

/-- In a range that is admitted an expression is evaluated once at every place, and its segments
are the maximal runs of places with a finite value: together they have the points of all such
places in order, none of them is empty, and between neighbours there is a break. Every other place
is reported, so that each is either in one segment or reported once. In any other range nothing is
evaluated, drawn or reported as a break. -/
theorem sample_segments (ctx : Context) (expression : Expression) (range : Range) :
    let survey := expression.sample ctx range
    let taken := sampleAt (expression.evaluateAt ctx) range
    (range.Admitted →
      survey.samples = (List.range range.count).map taken ∧
      survey.segments.flatten = (List.range range.count).filterMap (fun i => (taken i).point?) ∧
      [] ∉ survey.segments ∧
      ∃ (runs : List Run) (gaps : List Nat), MaximalRuns (isGood taken) range.count runs ∧
        survey.segments = runs.map (points taken) ∧
        survey.events = gaps.map (fun i => .broken (taken i).x (taken i).result) ∧
        ∀ i < range.count, runs.countP (i ∈ ·.numbers) + gaps.count i = 1) ∧
    (¬ range.Admitted → survey.samples = [] ∧ survey.segments = [] ∧
      ∀ x result, .broken x result ∉ survey.events) := by
  intro survey taken
  constructor
  · intro h
    have hsamples : survey.samples = (List.range range.count).map taken := samples_of_admitted h
    obtain ⟨runs, since, hdraws⟩ := exists_draws taken range.count
    rw [← hsamples] at hdraws
    have hruns := hdraws.progress.maximalRuns
    have hsegments : survey.segments = _ := hdraws.segments
    refine ⟨hsamples, ?_, ?_, _, _, hruns, hsegments, ?_, fun i hi => hruns.count hi⟩
    · rw [hsegments, hruns.flatten]
    · rw [hsegments]
      exact hruns.nil_notMem
    · exact (events_of_admitted h).trans hdraws.breaks
  · intro h
    have hsamples : survey.samples = [] := samples_of_not_admitted h
    refine ⟨hsamples, ?_, broken_notMem_events h⟩
    rw [Survey.segments, Survey.drawing, hsamples]
    rfl

/-- The statement above for `1 / x` from -2 to 2 in steps of 1, and for a range that ends at
infinity. -/
theorem sample_segments_reciprocal :
    let reciprocal : Expression := ⟨[.number 1, .unknown, .operator (.binary .divide)]⟩
    let ctx : Context := Mode.context {}
    let range : Range := ⟨-2, 2, 1⟩
    let endless : Range := ⟨0, Binary64.infinity, 1⟩
    let survey := reciprocal.sample ctx range
    (range.Admitted ∧ survey.segments.flatten = [⟨-2, -0.5⟩, ⟨-1, -1⟩, ⟨1, 1⟩, ⟨2, 0.5⟩] ∧
      [] ∉ survey.segments) ∧
    (¬ endless.Admitted ∧ (reciprocal.sample ctx endless).segments = []) := by
  intro reciprocal ctx range endless survey
  have hrange : range.Admitted :=
    ⟨by decide +kernel, by decide +kernel, by decide +kernel, by decide +kernel,
      by decide +kernel⟩
  have hendless : ¬ endless.Admitted := fun h => absurd h.stop (by decide +kernel)
  obtain ⟨-, hflatten, hnil, -⟩ := (sample_segments ctx reciprocal range).1 hrange
  refine ⟨⟨hrange, hflatten.trans ?_, hnil⟩, hendless, ?_⟩
  · decide +kernel
  · exact ((sample_segments ctx reciprocal endless).2 hendless).2.1

end Calculator
