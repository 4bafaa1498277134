import Analog.Waveform.Signal

/-!
# Evaluation at many times

An evaluator holds a waveform in which the duration of every node is known. The value at
a time is a linear combination of values of leaves at shifted times, and the terms of
this combination are worked off a list. So the depth of a waveform costs no stack.
-/

set_option autoImplicit false

namespace Analog

/-- A waveform whose durations are known. Records and alignments have no part in its values
and are left out. -/
inductive Timed where
  | leaf (signal : Signal)
  | negative (duration : Decimal) (inner : Timed)
  | add (duration : Decimal) (left right : Timed)
  | scale (duration : Decimal) (factor : Outcome Decimal) (inner : Timed)
  | slice (duration start : Decimal) (inner : Timed)
  | append (duration : Decimal) (parts : List Timed)

namespace Timed

def duration : Timed → Decimal
  | leaf signal => signal.duration
  | negative duration _ => duration
  | add duration _ _ => duration
  | scale duration _ _ => duration
  | slice duration _ _ => duration
  | append duration _ => duration

mutual

def size : Timed → Nat
  | leaf _ => 1
  | negative _ inner => inner.size + 1
  | add _ left right => left.size + right.size + 1
  | scale _ _ inner => inner.size + 1
  | slice _ _ inner => inner.size + 1
  | append _ parts => sizes parts + 1

def sizes : List Timed → Nat
  | [] => 0
  | part :: rest => part.size + sizes rest

end

/-- The part that covers a time, with the time counted from its start. Parts cover the times
before their end, the last one that is not empty also its end. -/
def route : List Timed → Decimal → Option (Timed × Decimal)
  | [], _ => none
  | part :: rest, time =>
    if part.duration.isZero then route rest time
    else if time < part.duration then some (part, time)
    else if time = part.duration && rest.all (·.duration.isZero) then some (part, time)
    else route rest (time - part.duration)

/-- A term still to be added: a coefficient times the value of a node at a time. -/
structure Pending where
  node : Timed
  time : Decimal
  coefficient : Decimal

/-- Adds pending terms, the first one first. Every step takes a node off the list, so the number
of nodes suffices as fuel. -/
def accumulate : (fuel : Nat) → List Pending → (total : Decimal) → Outcome Decimal
  | 0, _, total => .ok total
  | _, [], total => .ok total
  | fuel + 1, ⟨node, time, coefficient⟩ :: rest, total =>
    if Signal.outside node.duration time then accumulate fuel rest total
    else
      match node with
      | leaf signal => do
        let value ← signal.value time
        accumulate fuel rest (total + coefficient * value)
      | negative _ inner => accumulate fuel (⟨inner, time, -coefficient⟩ :: rest) total
      | add _ left right =>
        accumulate fuel (⟨right, time, coefficient⟩ :: ⟨left, time, coefficient⟩ :: rest) total
      | scale _ factor inner => do
        let factorValue ← factor
        accumulate fuel (⟨inner, time, coefficient * factorValue⟩ :: rest) total
      | slice _ start inner => accumulate fuel (⟨inner, time + start, coefficient⟩ :: rest) total
      | append _ parts =>
        match route parts time with
        | some (part, partTime) => accumulate fuel (⟨part, partTime, coefficient⟩ :: rest) total
        | none => accumulate fuel rest total

def valueAt (node : Timed) (time : Decimal) : Outcome Decimal :=
  accumulate node.size [⟨node, time, 1⟩] 0

/-- A node as a signal that has the values found by working off a list. -/
def evaluated (node : Timed) : Signal := ⟨node.duration, node.valueAt⟩

end Timed

namespace Waveform

open Signal

variable [Natives]

mutual

/-- Computes all durations of a waveform. Samples and smoothings count as leaves; the values of
what they enclose are worked off a list of their own. -/
def timed (bindings : ScalarBindings) : Waveform → Outcome Timed
  | .constant value duration => do
    let meaning ← (Waveform.constant value duration).signal bindings
    return .leaf meaning
  | .ramp start stop duration => do
    let meaning ← (Waveform.ramp start stop duration).signal bindings
    return .leaf meaning
  | .poly coefficients duration => do
    let meaning ← (Waveform.poly coefficients duration).signal bindings
    return .leaf meaning
  | .native name function duration parameters => do
    let meaning ← (Waveform.native name function duration parameters).signal bindings
    return .leaf meaning
  | .negative inner => do
    let node ← timed bindings inner
    return .negative node.duration node
  | .add left right => do
    let leftNode ← timed bindings left
    let rightNode ← timed bindings right
    return .add (max leftNode.duration rightNode.duration) leftNode rightNode
  | .scale factor inner => do
    let node ← timed bindings inner
    return .scale node.duration (factor.eval bindings) node
  | .slice inner interval => do
    let node ← timed bindings inner
    let (start, stop) ← sliceBounds bindings (fun _ => (Waveform.slice inner interval).text)
      interval node.duration
    return .slice (stop - start) start node
  | .append parts => do
    let nodes ← timedAll bindings parts
    return .append (nodes.foldr (fun node total => node.duration + total) 0) nodes
  | .record _ inner _ => timed bindings inner
  | .sample inner step interpolation => do
    let node ← timed bindings inner
    let points := samplePoints (fun _ => (Waveform.sample inner step interpolation).text)
      node.evaluated (step.eval bindings) interpolation
    return .leaf (sampled interpolation points node.duration)
  | .smooth inner radius kernel => do
    let node ← timed bindings inner
    return .leaf (smoothed kernel (radius.eval bindings) node.evaluated)
  | .aligned inner _ _ => timed bindings inner

def timedAll (bindings : ScalarBindings) : List Waveform → Outcome (List Timed)
  | [] => .ok []
  | part :: rest => do
    let node ← timed bindings part
    let nodes ← timedAll bindings rest
    return node :: nodes

end

end Waveform

/-- A waveform prepared for evaluation at many times. -/
structure Evaluator where
  root : Timed

namespace Evaluator

def of [Natives] (bindings : ScalarBindings) (waveform : Waveform) : Outcome Evaluator := do
  let root ← waveform.timed bindings
  return ⟨root⟩

def duration (evaluator : Evaluator) : Decimal := evaluator.root.duration

def valueAt (evaluator : Evaluator) (time : Decimal) : Outcome Decimal :=
  evaluator.root.valueAt time

end Evaluator

end Analog
