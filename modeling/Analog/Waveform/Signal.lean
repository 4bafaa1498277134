import Analog.Breakpoints
import Analog.Waveform.Duration
import Analog.Waveform.Smoothing

/-!
# The meaning of waveforms

Under given bindings a waveform means a signal: a duration and a value for every time.
Outside its duration the value is zero. Each way of building waveforms has a counterpart
on signals, and the meaning of a waveform is built from the meanings of its parts.
-/

set_option autoImplicit false

namespace Analog

/-- What the identifiers of native functions stand for. -/
class Natives where
  run : (function : String) → (time : Decimal) → (parameters : List Decimal) → Outcome Decimal

structure Signal where
  duration : Decimal
  value : Decimal → Outcome Decimal

/-- Sample times of a signal, with its values there. -/
structure SamplePoints where
  times : List Decimal
  values : List Decimal

namespace Signal

def outside (duration time : Decimal) : Bool :=
  time.isNegative || decide (duration < time)

def within (duration : Decimal) (inside : Decimal → Outcome Decimal) : Signal :=
  ⟨duration, fun time => if outside duration time then .ok 0 else inside time⟩

def negate (inner : Signal) : Signal :=
  within inner.duration fun time => do
    let value ← inner.value time
    return -value

def plus (left right : Signal) : Signal :=
  within (max left.duration right.duration) fun time => do
    let rightValue ← right.value time
    let leftValue ← left.value time
    return leftValue + rightValue

def scaled (factor : Outcome Decimal) (inner : Signal) : Signal :=
  within inner.duration fun time => do
    let factorValue ← factor
    let value ← inner.value time
    return factorValue * value

def cut (start stop : Decimal) (inner : Signal) : Signal :=
  within (stop - start) fun time => inner.value (time + start)

/-- The value, at a time counted from the start of the first, of signals one after the other.
Each covers the times before its end, the last one that is not empty also its end. -/
def sequenceValue : List Signal → Decimal → Outcome Decimal
  | [], _ => .ok 0
  | part :: rest, time =>
    if part.duration.isZero then sequenceValue rest time
    else if time < part.duration then part.value time
    else if time = part.duration && rest.all (·.duration.isZero) then part.value time
    else sequenceValue rest (time - part.duration)

def totalDuration (parts : List Signal) : Decimal :=
  parts.foldr (fun part total => part.duration + total) 0

def concatenate (parts : List Signal) : Signal :=
  within (totalDuration parts) (sequenceValue parts)

/-- Steps of the given length needed to reach a duration: the least number that does. -/
def stepCount (duration step : Decimal) : Nat :=
  let scale := max duration.scale step.scale
  let length := duration.raised scale
  let unit := step.raised scale
  if length ≤ 0 then 0 else ((length + unit - 1) / unit).toNat

/-- The times from a given one on, a step apart, that come before the duration. The fuel bounds
their number. -/
def timesBefore (duration step : Decimal) : (fuel : Nat) → (time : Decimal) → List Decimal
  | 0, _ => []
  | fuel + 1, time =>
    if time < duration then time :: timesBefore duration step fuel (time + step) else []

/-- The times from zero on, a step apart, that come before the duration, and the duration
itself. -/
def sampleTimes (duration step : Decimal) : List Decimal :=
  timesBefore duration step (stepCount duration step) 0 ++ [duration]

/-- Replaces the last of at least two values by the one before it. -/
def flattenEnd : List Decimal → List Decimal
  | [] => []
  | [value] => [value]
  | [value, _] => [value, value]
  | first :: second :: third :: rest => first :: flattenEnd (second :: third :: rest)

/-- The points at which a signal is sampled. Under constant interpolation the last value is that
of the point before. -/
def samplePoints (subject : Unit → String) (inner : Signal) (step : Outcome Decimal)
    (interpolation : Interpolation) : Outcome SamplePoints := do
  let stepValue ← step
  if stepValue.isPositive then
    let times := sampleTimes inner.duration stepValue
    let values ← times.mapM inner.value
    match interpolation with
    | .linear => return ⟨times, values⟩
    | .constant => return ⟨times, flattenEnd values⟩
  else .error (.malformed (subject ()) (.stepNotPositive stepValue))

def sampledValue (interpolation : Interpolation) (points : SamplePoints) (time : Decimal) :
    Outcome Decimal :=
  let index := Breakpoints.lastAtMost points.times time
  let value := points.values.getD index 0
  match interpolation with
  | .constant => .ok value
  | .linear =>
    match points.times[index + 1]?, points.values[index + 1]? with
    | some nextTime, some nextValue =>
      let thisTime := points.times.getD index 0
      if nextTime = thisTime then .ok value
      else Breakpoints.between thisTime value nextTime nextValue time
    | _, _ => .ok value

def sampled (interpolation : Interpolation) (points : Outcome SamplePoints) (duration : Decimal) :
    Signal :=
  within duration fun time => do
    let found ← points
    sampledValue interpolation found time

/-- Smoothing; a radius that is not positive changes nothing. -/
def smoothed (kernel : Kernel) (radius : Outcome Decimal) (inner : Signal) : Signal :=
  within inner.duration fun time => do
    let radiusValue ← radius
    if radiusValue.isPositive then
      Smoothing.valueAt kernel radiusValue inner.duration inner.value time
    else inner.value time

/-- The straight line from one value to another. An empty line stays at its start. -/
def line (start stop : Outcome Decimal) (duration : Decimal) : Signal :=
  within duration fun time => do
    let startValue ← start
    let stopValue ← stop
    if duration.isZero then return startValue
    else Breakpoints.between 0 startValue duration stopValue time

/-- The value of a polynomial, coefficients in increasing degree. -/
def polynomialValue (coefficients : List Decimal) (time : Decimal) : Decimal :=
  coefficients.foldr (fun coefficient value => value * time + coefficient) 0

end Signal

namespace Waveform

open Signal

variable [Natives]

mutual

/-- The meaning of a waveform. It fails if any duration in the waveform does. -/
def signal (bindings : ScalarBindings) : Waveform → Outcome Signal
  | .constant value duration => do
    let length ← leafDuration bindings duration
    return within length fun _ => value.eval bindings
  | .ramp start stop duration => do
    let length ← leafDuration bindings duration
    return line (start.eval bindings) (stop.eval bindings) length
  | .poly coefficients duration => do
    let length ← leafDuration bindings duration
    return within length fun time => do
      let values ← Scalar.evalAll bindings coefficients
      return polynomialValue values time
  | .native _ function duration parameters => do
    let length ← leafDuration bindings duration
    return within length fun time => do
      let values ← Scalar.evalAll bindings parameters
      Natives.run function time values
  | .negative inner => do
    let meaning ← signal bindings inner
    return negate meaning
  | .add left right => do
    let leftMeaning ← signal bindings left
    let rightMeaning ← signal bindings right
    return plus leftMeaning rightMeaning
  | .scale factor inner => do
    let meaning ← signal bindings inner
    return scaled (factor.eval bindings) meaning
  | .slice inner interval => do
    let meaning ← signal bindings inner
    let (start, stop) ← sliceBounds bindings (fun _ => (Waveform.slice inner interval).text)
      interval meaning.duration
    return cut start stop meaning
  | .append parts => do
    let meanings ← signals bindings parts
    return concatenate meanings
  | .record _ inner _ => signal bindings inner
  | .sample inner step interpolation => do
    let meaning ← signal bindings inner
    let points := samplePoints (fun _ => (Waveform.sample inner step interpolation).text) meaning
      (step.eval bindings) interpolation
    return sampled interpolation points meaning.duration
  | .smooth inner radius kernel => do
    let meaning ← signal bindings inner
    return smoothed kernel (radius.eval bindings) meaning
  | .aligned inner _ _ => signal bindings inner

def signals (bindings : ScalarBindings) : List Waveform → Outcome (List Signal)
  | [] => .ok []
  | part :: rest => do
    let meaning ← signal bindings part
    let meanings ← signals bindings rest
    return meaning :: meanings

end

def valueAt (bindings : ScalarBindings) (waveform : Waveform) (time : Decimal) :
    Outcome Decimal := do
  let meaning ← waveform.signal bindings
  meaning.value time

/-- The sample points of a sampled waveform; no other waveform has any. -/
def samplePoints? (bindings : ScalarBindings) : Waveform → Option (Outcome SamplePoints)
  | .sample inner step interpolation => some do
    let meaning ← inner.signal bindings
    Signal.samplePoints (fun _ => (Waveform.sample inner step interpolation).text) meaning
      (step.eval bindings) interpolation
  | _ => none

end Waveform

end Analog
