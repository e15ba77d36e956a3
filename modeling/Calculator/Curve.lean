import Calculator.Event
import Calculator.Expression

/-!
# Sampling a curve

A function is evaluated at evenly spaced places of a range. The points whose values are
finite are joined to segments; the curve is broken wherever there is no such point.
-/

namespace Calculator.Curve

/-- The most places at which a curve is evaluated. -/
def maxSamples : Nat := 1000000

/-- The places `start`, `start + step`, … up to `stop`. -/
structure Range where
  start : Float
  stop : Float
  step : Float
  deriving DecidableEq

/-- How many places a range has. -/
inductive Extent where
  | empty
  | tooMany
  | places (count : Nat)
  deriving DecidableEq, Repr

namespace Range

/-- Does the range go forward between finite ends? -/
def isForward (range : Range) : Bool :=
  0 < range.step && range.start.isFinite && range.stop.isFinite && !(range.stop < range.start)

/-- The number of whole steps from the start to the stop. -/
def steps (range : Range) : Float := Binary64.floor ((range.stop - range.start) / range.step)

def extent (range : Range) : Extent :=
  if !range.isForward then .empty
  else if range.steps < .ofNat maxSamples then .places (Binary64.toNat range.steps + 1)
  else .tooMany

/-- The place after `i` steps. A product does not drift as a sum of steps would. -/
def place (range : Range) (i : Nat) : Float := range.start + .ofNat i * range.step

/-- All places of the range, in order. -/
def places (range : Range) : List Float :=
  match range.extent with
  | .places count => (List.range count).map range.place
  | .empty | .tooMany => []

end Range

/-- A place and the value there. -/
structure Sample where
  x : Float
  result : Except EvaluationError Float

structure Point where
  x : Float
  y : Float
  deriving DecidableEq

namespace Sample

/-- The point of the curve, if the value is finite. -/
def point? (sample : Sample) : Option Point :=
  match sample.result with
  | .ok y => if y.isFinite then some ⟨sample.x, y⟩ else none
  | .error _ => none

end Sample

/-- A curve that is being drawn: the segments that are complete, the points of the one in progress,
and the breaks that were met. The latest come first. -/
structure Drawing where
  complete : List (List Point)
  current : List Point
  breaks : List Event

namespace Drawing

def blank : Drawing := ⟨[], [], []⟩

/-- The segments with the one in progress, which does not count while it has no point. -/
def segments (drawing : Drawing) : List (List Point) :=
  if drawing.current.isEmpty then drawing.complete
  else drawing.current.reverse :: drawing.complete

/-- Draws on to the next sample: a point continues the segment in progress, anything else ends
it. -/
def extend (drawing : Drawing) (sample : Sample) : Drawing :=
  match sample.point? with
  | some point => { drawing with current := point :: drawing.current }
  | none => ⟨drawing.segments, [], .broken sample.x sample.result :: drawing.breaks⟩

/-- The curve through samples, from the first to the last. -/
def ofSamples (samples : List Sample) : Drawing := samples.foldl extend blank

end Drawing

/-- The account of a sampled range. -/
structure Survey where
  range : Range
  samples : List Sample

namespace Survey

def drawing (survey : Survey) : Drawing := .ofSamples survey.samples

/-- The segments of the curve, from the first to the last. -/
def segments (survey : Survey) : List (List Point) := survey.drawing.segments.reverse

def events (survey : Survey) : List Event :=
  match survey.range.extent with
  | .tooMany => [.tooManyPoints survey.range.start survey.range.stop survey.range.step]
  | .empty | .places _ => survey.drawing.breaks.reverse

end Survey

/-- Evaluates a function at the places of a range. -/
def sample (f : Float → Except EvaluationError Float) (range : Range) : Survey :=
  ⟨range, range.places.map fun x => ⟨x, f x⟩⟩

end Curve

/-- Samples the expression as a function of the unknown. -/
def Expression.sample (ctx : Context) (range : Curve.Range) (expression : Expression) :
    Curve.Survey :=
  Curve.sample (expression.evaluateAt ctx) range

end Calculator
