import Analog.Series
import Analog.Waveform.Signal

/-!
# Lowering waveforms to series

A waveform is turned into an equal series, if it has one of the wanted form. Smoothed
waveforms and native functions must be sampled first. Waveforms one after the other that
are no waveform at all have no series, and whatever needs a series of them aborts.
-/

set_option autoImplicit false

namespace Analog

def Outcome.need {α : Type} : Option α → Outcome α
  | some value => .ok value
  | none => .error (.abort .missing)

namespace Lowering

/-- The duration of a leaf. If it is negative the whole leaf is to blame. -/
def leafDuration (bindings : ScalarBindings) (subject : Unit → String) (duration : Scalar) :
    Outcome Decimal := do
  let length ← duration.eval bindings
  if length.isNegative then .error (.malformed (subject ()) (.negativeDuration length))
  else return length

def significant (coefficients : List Decimal) : List Decimal :=
  (coefficients.reverse.dropWhile (·.isZero)).reverse

/-- The sample points of a sampled waveform as breakpoints. -/
def sampled [Natives] (bindings : ScalarBindings) (inner : Waveform) (step : Scalar)
    (interpolation : Interpolation) : Outcome (List Breakpoint) := do
  let meaning ← inner.signal bindings
  let points ← Signal.samplePoints (fun _ => (Waveform.sample inner step interpolation).text)
    meaning (step.eval bindings) interpolation
  return List.zipWith Breakpoint.mk points.times points.values

end Lowering

open Breakpoints

namespace LinearSeries

/-- A straight line. Without duration there is only its start. -/
def line (duration start stop : Decimal) : LinearSeries :=
  if duration.isZero then ⟨[⟨0, start⟩]⟩ else ⟨[⟨0, start⟩, ⟨duration, stop⟩]⟩

/-- The last value of the shorter series, with its time, unless both are equally long. -/
def dropout? (left right : LinearSeries) : Option Breakpoint :=
  if left.duration < right.duration then left.points.getLast?
  else if right.duration < left.duration then right.points.getLast?
  else none

/-- The sum. The shorter series must end at zero, where it stops to contribute. -/
def plus (left right : LinearSeries) : Outcome LinearSeries :=
  match (dropout? left right).filter fun point => !point.value.isZero with
  | some point =>
    .error (.discontinuity point.time point.value.toText point.value "0" 0 [])
  | none =>
    .ok ⟨(union (times left.points) (times right.points)).map fun time =>
      ⟨time, left.eval time + right.eval time⟩⟩

/-- Joins parts from left to right; parts without duration leave no trace beside others. -/
def concatenate : Option LinearSeries → List (Option LinearSeries) → Outcome (Option LinearSeries)
  | joined, [] => .ok joined
  | none, part :: rest => concatenate part rest
  | some joined, part :: rest => do
    let series ← Outcome.need part
    if series.duration.isZero then concatenate (some joined) rest
    else if joined.duration.isZero then concatenate (some series) rest
    else
      let longer ← joined.append series
      concatenate (some longer) rest

def ofPolynomial (construct : Unit → String) (duration : Decimal) (coefficients : List Decimal) :
    Outcome LinearSeries :=
  match Lowering.significant coefficients with
  | [] => .ok (line duration 0 0)
  | [value] => .ok (line duration value value)
  | [value, slope] => .ok (line duration value (value + slope * duration))
  | _ => .error (.unsupported (construct ()) .linear .highDegree)

end LinearSeries

namespace ConstantSeries

/-- A single step. Without duration there is only its start. -/
def level (duration value : Decimal) : ConstantSeries :=
  if duration.isZero then ⟨[⟨0, value⟩]⟩ else ⟨[⟨0, value⟩, ⟨duration, value⟩]⟩

/-- The sum. A series contributes nothing from its end on. -/
def plus (left right : ConstantSeries) : ConstantSeries :=
  ⟨flatTail ((union (times left.points) (times right.points)).map fun time =>
    ⟨time, left.step time + right.step time⟩)⟩

/-- Joins parts from left to right; parts without duration leave no trace beside others. -/
def concatenate :
    Option ConstantSeries → List (Option ConstantSeries) → Outcome (Option ConstantSeries)
  | joined, [] => .ok joined
  | none, part :: rest => concatenate part rest
  | some joined, part :: rest => do
    let series ← Outcome.need part
    if series.duration.isZero then concatenate (some joined) rest
    else if joined.duration.isZero then concatenate (some series) rest
    else concatenate (some (joined.append series)) rest

def ofLine (construct : Unit → String) (duration start stop : Decimal) : Outcome ConstantSeries :=
  if start = stop || duration.isZero then .ok (level duration start)
  else .error (.unsupported (construct ()) .constant .risingPiece)

def ofPolynomial (construct : Unit → String) (duration : Decimal) (coefficients : List Decimal) :
    Outcome ConstantSeries :=
  match Lowering.significant coefficients with
  | [] => .ok (level duration 0)
  | [value] => .ok (level duration value)
  | value :: _ =>
    if duration.isZero then .ok (level duration value)
    else .error (.unsupported (construct ()) .constant .varyingPiece)

end ConstantSeries

namespace Waveform

variable [Natives]

mutual

/-- The linear series of a waveform; waveforms one after the other that are none have none. -/
def linearSeries? (bindings : ScalarBindings) : Waveform → Outcome (Option LinearSeries)
  | .constant value duration => do
    let length ← Lowering.leafDuration bindings
      (fun _ => (Waveform.constant value duration).text) duration
    let number ← value.eval bindings
    return some (.line length number number)
  | .ramp start stop duration => do
    let length ← Lowering.leafDuration bindings
      (fun _ => (Waveform.ramp start stop duration).text) duration
    let startValue ← start.eval bindings
    let stopValue ← stop.eval bindings
    return some (.line length startValue stopValue)
  | .poly coefficients duration => do
    let subject := fun (_ : Unit) => (Waveform.poly coefficients duration).text
    let length ← Lowering.leafDuration bindings subject duration
    let values ← Scalar.evalAll bindings coefficients
    let series ← LinearSeries.ofPolynomial subject length values
    return some series
  | .native name function duration parameters =>
    .error (.unsupported (Waveform.native name function duration parameters).text .linear
      (.native name))
  | .negative inner => do
    let lowered ← linearSeries? bindings inner
    let series ← Outcome.need lowered
    return some (series.map (-·))
  | .add left right => do
    let loweredLeft ← linearSeries? bindings left
    let loweredRight ← linearSeries? bindings right
    let leftSeries ← Outcome.need loweredLeft
    let rightSeries ← Outcome.need loweredRight
    let series ← leftSeries.plus rightSeries
    return some series
  | .scale factor inner => do
    let lowered ← linearSeries? bindings inner
    let number ← factor.eval bindings
    let series ← Outcome.need lowered
    return some (series.map (number * ·))
  | .slice inner interval => do
    let lowered ← linearSeries? bindings inner
    let series ← Outcome.need lowered
    let (start, stop) ← sliceBounds bindings (fun _ => (Waveform.slice inner interval).text)
      interval series.duration
    let part ← series.slice start stop
    return some part
  | .append parts => do
    let lowered ← linearSeriesAll bindings parts
    LinearSeries.concatenate none lowered
  | .record _ inner _ => linearSeries? bindings inner
  | .sample inner step interpolation =>
    match interpolation with
    | .linear => do
      let points ← Lowering.sampled bindings inner step interpolation
      return some ⟨points⟩
    | .constant =>
      .error (.unsupported (Waveform.sample inner step interpolation).text .linear
        (.interpolation interpolation.name))
  | .smooth inner radius kernel =>
    .error (.unsupported (Waveform.smooth inner radius kernel).text .linear .smoothed)
  | .aligned inner _ _ => linearSeries? bindings inner

def linearSeriesAll (bindings : ScalarBindings) :
    List Waveform → Outcome (List (Option LinearSeries))
  | [] => .ok []
  | part :: rest => do
    let lowered ← linearSeries? bindings part
    let others ← linearSeriesAll bindings rest
    return lowered :: others

end

theorem linear_series_record (bindings : ScalarBindings) (name : String) (inner : Waveform)
    (side : Side) :
    linearSeries? bindings (.record name inner side) = linearSeries? bindings inner := by
  rw [linearSeries?]

mutual

/-- The constant series of a waveform; waveforms one after the other that are none have none. -/
def constantSeries? (bindings : ScalarBindings) : Waveform → Outcome (Option ConstantSeries)
  | .constant value duration => do
    let length ← Lowering.leafDuration bindings
      (fun _ => (Waveform.constant value duration).text) duration
    let number ← value.eval bindings
    return some (.level length number)
  | .ramp start stop duration => do
    let subject := fun (_ : Unit) => (Waveform.ramp start stop duration).text
    let length ← Lowering.leafDuration bindings subject duration
    let startValue ← start.eval bindings
    let stopValue ← stop.eval bindings
    let series ← ConstantSeries.ofLine subject length startValue stopValue
    return some series
  | .poly coefficients duration => do
    let subject := fun (_ : Unit) => (Waveform.poly coefficients duration).text
    let length ← Lowering.leafDuration bindings subject duration
    let values ← Scalar.evalAll bindings coefficients
    let series ← ConstantSeries.ofPolynomial subject length values
    return some series
  | .native name function duration parameters =>
    .error (.unsupported (Waveform.native name function duration parameters).text .constant
      (.native name))
  | .negative inner => do
    let lowered ← constantSeries? bindings inner
    let series ← Outcome.need lowered
    return some (series.map (-·))
  | .add left right => do
    let loweredLeft ← constantSeries? bindings left
    let loweredRight ← constantSeries? bindings right
    let leftSeries ← Outcome.need loweredLeft
    let rightSeries ← Outcome.need loweredRight
    return some (leftSeries.plus rightSeries)
  | .scale factor inner => do
    let lowered ← constantSeries? bindings inner
    let number ← factor.eval bindings
    let series ← Outcome.need lowered
    return some (series.map (number * ·))
  | .slice inner interval => do
    let lowered ← constantSeries? bindings inner
    let series ← Outcome.need lowered
    let (start, stop) ← sliceBounds bindings (fun _ => (Waveform.slice inner interval).text)
      interval series.duration
    let part ← series.slice start stop
    return some part
  | .append parts => do
    let lowered ← constantSeriesAll bindings parts
    ConstantSeries.concatenate none lowered
  | .record _ inner _ => constantSeries? bindings inner
  | .sample inner step interpolation =>
    match interpolation with
    | .constant => do
      let points ← Lowering.sampled bindings inner step interpolation
      return some ⟨points⟩
    | .linear =>
      .error (.unsupported (Waveform.sample inner step interpolation).text .constant
        (.interpolation interpolation.name))
  | .smooth inner radius kernel =>
    .error (.unsupported (Waveform.smooth inner radius kernel).text .constant .smoothed)
  | .aligned inner _ _ => constantSeries? bindings inner

def constantSeriesAll (bindings : ScalarBindings) :
    List Waveform → Outcome (List (Option ConstantSeries))
  | [] => .ok []
  | part :: rest => do
    let lowered ← constantSeries? bindings part
    let others ← constantSeriesAll bindings rest
    return lowered :: others

end

theorem constant_series_record (bindings : ScalarBindings) (name : String) (inner : Waveform)
    (side : Side) :
    constantSeries? bindings (.record name inner side) = constantSeries? bindings inner := by
  rw [constantSeries?]

def lowerLinear (bindings : ScalarBindings) (waveform : Waveform) : Outcome LinearSeries := do
  let lowered ← waveform.linearSeries? bindings
  Outcome.need lowered

def lowerConstant (bindings : ScalarBindings) (waveform : Waveform) : Outcome ConstantSeries := do
  let lowered ← waveform.constantSeries? bindings
  Outcome.need lowered

def lower (bindings : ScalarBindings) (target : Target) (waveform : Waveform) : Outcome Series :=
  match target with
  | .linear => Series.linear <$> waveform.lowerLinear bindings
  | .constant => Series.constant <$> waveform.lowerConstant bindings

end Waveform

end Analog
