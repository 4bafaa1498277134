import Analog.Scalar.Value
import Analog.Waveform

/-!
# Durations of waveforms

The duration of a sum is the greater of two, that of waveforms one after the other is
their sum, and a slice lasts as long as its interval. It is available as a scalar
expression and as a number.
-/

set_option autoImplicit false

namespace Analog.Waveform

/-- The sum of durations, from left to right; of none it is zero. -/
def sumOfDurations : List Scalar → Scalar
  | [] => Scalar.zero
  | first :: rest => rest.foldl Scalar.add first

mutual

def symbolicDuration : Waveform → Scalar
  | .constant _ duration => duration
  | .ramp _ _ duration => duration
  | .poly _ duration => duration
  | .native _ _ duration _ => duration
  | .negative inner => symbolicDuration inner
  | .add left right => Scalar.maximum [symbolicDuration left, symbolicDuration right]
  | .scale _ inner => symbolicDuration inner
  | .slice inner interval => .slice (symbolicDuration inner) interval.start interval.stop
  | .append parts => sumOfDurations (symbolicDurations parts)
  | .record _ inner _ => symbolicDuration inner
  | .sample inner _ _ => symbolicDuration inner
  | .smooth inner _ _ => symbolicDuration inner
  | .aligned inner _ _ => symbolicDuration inner

def symbolicDurations : List Waveform → List Scalar
  | [] => []
  | part :: rest => symbolicDuration part :: symbolicDurations rest

end

def leafDuration (bindings : ScalarBindings) (duration : Scalar) : Outcome Decimal := do
  let value ← duration.eval bindings
  if value.isNegative then .error (.malformed duration.text (.negativeDuration value))
  else return value

/-- Start and stop of an interval within an extent. The subject is named if they are not in
order within it. -/
def sliceBounds (bindings : ScalarBindings) (subject : Unit → String) (interval : Interval)
    (extent : Decimal) : Outcome (Decimal × Decimal) := do
  let start ← Scalar.evalBound bindings interval.start
  let stop ← Scalar.evalBound bindings interval.stop
  let length ← Outcome.blame subject (sliceLength extent start stop)
  let lower := start.getD 0
  return (lower, lower + length)

mutual

def duration (bindings : ScalarBindings) : Waveform → Outcome Decimal
  | .constant _ duration => leafDuration bindings duration
  | .ramp _ _ duration => leafDuration bindings duration
  | .poly _ duration => leafDuration bindings duration
  | .native _ _ duration _ => leafDuration bindings duration
  | .negative inner => duration bindings inner
  | .add left right => do
    let leftDuration ← duration bindings left
    let rightDuration ← duration bindings right
    return max leftDuration rightDuration
  | .scale _ inner => duration bindings inner
  | .slice inner interval => do
    let extent ← duration bindings inner
    let (start, stop) ←
      sliceBounds bindings (fun _ => (Waveform.slice inner interval).text) interval extent
    return stop - start
  | .append parts => totalDuration bindings parts
  | .record _ inner _ => duration bindings inner
  | .sample inner _ _ => duration bindings inner
  | .smooth inner _ _ => duration bindings inner
  | .aligned inner _ _ => duration bindings inner

def totalDuration (bindings : ScalarBindings) : List Waveform → Outcome Decimal
  | [] => .ok 0
  | part :: rest => do
    let first ← duration bindings part
    let others ← totalDuration bindings rest
    return first + others

end

end Analog.Waveform
