import Analog.Bindings
import Analog.Tagged.Node

/-!
# Assignment

Assigning bindings gives values to the variables and vectors of a program. Names without
a binding stay as they are, and a name that has a value already must not be bound again.
A record whose variable is bound has served its purpose and leaves only the waveform
inside it. The parts of a node are assigned before the node, from left to right.
-/

set_option autoImplicit false

namespace Analog

namespace Scalar

mutual

def assign (bindings : ScalarBindings) : Scalar → Outcome Scalar
  | .literal value => .ok (.literal value)
  | .variable name =>
    match bindings.find? name with
    | some value => .ok (.assigned name value)
    | none => .ok (.variable name)
  | .assigned name value =>
    match bindings.find? name with
    | some attempted => .error (.reassigned name (.scalar value) (.scalar attempted))
    | none => .ok (.assigned name value)
  | .negative operand => do
    let operand' ← assign bindings operand
    return .negative operand'
  | .add left right => do
    let left' ← assign bindings left
    let right' ← assign bindings right
    return .add left' right'
  | .mul left right => do
    let left' ← assign bindings left
    let right' ← assign bindings right
    return .mul left' right'
  | .div left right => do
    let left' ← assign bindings left
    let right' ← assign bindings right
    return .div left' right'
  | .min operands => do
    let operands' ← assignAll bindings operands
    return minimum operands'
  | .max operands => do
    let operands' ← assignAll bindings operands
    return maximum operands'
  | .slice extent start stop => do
    let extent' ← assign bindings extent
    let start' ← assignBound bindings start
    let stop' ← assignBound bindings stop
    return .slice extent' start' stop'

def assignAll (bindings : ScalarBindings) : List Scalar → Outcome (List Scalar)
  | [] => .ok []
  | operand :: rest => do
    let operand' ← assign bindings operand
    let rest' ← assignAll bindings rest
    return operand' :: rest'

def assignBound (bindings : ScalarBindings) : Option Scalar → Outcome (Option Scalar)
  | none => .ok none
  | some bound => do
    let bound' ← assign bindings bound
    return some bound'

end

end Scalar

def Interval.assign (bindings : ScalarBindings) (interval : Interval) : Outcome Interval := do
  let start ← Scalar.assignBound bindings interval.start
  let stop ← Scalar.assignBound bindings interval.stop
  return ⟨start, stop⟩

def FillValue.assign (bindings : ScalarBindings) : FillValue → Outcome FillValue
  | .explicit value => do
    let value' ← value.assign bindings
    return .explicit value'
  | .boundary side => .ok (.boundary side)

namespace Waveform

mutual

def assign (bindings : ScalarBindings) : Waveform → Outcome Waveform
  | .constant value duration => do
    let value' ← value.assign bindings
    let duration' ← duration.assign bindings
    return .constant value' duration'
  | .ramp start stop duration => do
    let start' ← start.assign bindings
    let stop' ← stop.assign bindings
    let duration' ← duration.assign bindings
    return .ramp start' stop' duration'
  | .poly coefficients duration => do
    let coefficients' ← Scalar.assignAll bindings coefficients
    let duration' ← duration.assign bindings
    return .poly coefficients' duration'
  | .native name function duration parameters => do
    let parameters' ← Scalar.assignAll bindings parameters
    let duration' ← duration.assign bindings
    return .native name function duration' parameters'
  | .negative inner => do
    let inner' ← assign bindings inner
    return .negative inner'
  | .add left right => do
    let left' ← assign bindings left
    let right' ← assign bindings right
    return .add left' right'
  | .scale factor inner => do
    let inner' ← assign bindings inner
    let factor' ← factor.assign bindings
    return .scale factor' inner'
  | .slice inner interval => do
    let inner' ← assign bindings inner
    let interval' ← interval.assign bindings
    return .slice inner' interval'
  | .append parts => do
    let parts' ← assignAll bindings parts
    return .append parts'
  | .record name inner side => do
    let inner' ← assign bindings inner
    if bindings.contains name then return inner' else return .record name inner' side
  | .sample inner step interpolation => do
    let inner' ← assign bindings inner
    let step' ← step.assign bindings
    return .sample inner' step' interpolation
  | .smooth inner radius kernel => do
    let inner' ← assign bindings inner
    let radius' ← radius.assign bindings
    return .smooth inner' radius' kernel
  | .aligned inner alignment fill => do
    let inner' ← assign bindings inner
    let fill' ← fill.assign bindings
    return .aligned inner' alignment fill'

def assignAll (bindings : ScalarBindings) : List Waveform → Outcome (List Waveform)
  | [] => .ok []
  | part :: rest => do
    let part' ← assign bindings part
    let rest' ← assignAll bindings rest
    return part' :: rest'

end

end Waveform

namespace Modulation

def assignLocations (bindings : ScalarBindings) : List Location → Outcome (List Location)
  | [] => .ok []
  | location :: rest => do
    let weight ← location.weight.assign bindings
    let rest' ← assignLocations bindings rest
    return ⟨location.site, weight⟩ :: rest'

def assign (bindings : Bindings) : Modulation → Outcome Modulation
  | .uniform => .ok .uniform
  | .vector name =>
    match bindings.vectors.find? name with
    | some values => .ok (.assignedVector name values)
    | none => .ok (.vector name)
  | .assignedVector name values =>
    match bindings.vectors.find? name with
    | some attempted => .error (.reassigned name (.vector values) (.vector attempted))
    | none => .ok (.assignedVector name values)
  | .scaled locations => do
    let locations' ← assignLocations bindings.scalars locations
    return ofLocations locations'

end Modulation

def Drive.assign (bindings : Bindings) (drive : Drive) : Outcome Drive := do
  let target ← drive.target.assign bindings
  let waveform ← drive.waveform.assign bindings.scalars
  return ⟨target, waveform⟩

def Field.assign (bindings : Bindings) (field : Field) : Outcome Field := do
  let drives ← field.drives.mapM (Drive.assign bindings)
  return ofDrives drives

namespace Pulse

mutual

def assign (bindings : Bindings) : Pulse → Outcome Pulse
  | .plain fields => do
    let fields' ← fields.mapM (Field.assign bindings)
    return .plain fields'
  | .append parts => do
    let parts' ← assignAll bindings parts
    return .append parts'
  | .slice inner interval => do
    let inner' ← assign bindings inner
    let interval' ← interval.assign bindings.scalars
    return .slice inner' interval'
  | .named name inner => do
    let inner' ← assign bindings inner
    return .named name inner'

def assignAll (bindings : Bindings) : List Pulse → Outcome (List Pulse)
  | [] => .ok []
  | part :: rest => do
    let part' ← assign bindings part
    let rest' ← assignAll bindings rest
    return part' :: rest'

end

end Pulse

namespace Sequence

mutual

def assign (bindings : Bindings) : Sequence → Outcome Sequence
  | .plain pulses => do
    let pulses' ← pulses.mapM (Pulse.assign bindings)
    return .plain pulses'
  | .append parts => do
    let parts' ← assignAll bindings parts
    return .append parts'
  | .slice inner interval => do
    let inner' ← assign bindings inner
    let interval' ← interval.assign bindings.scalars
    return .slice inner' interval'
  | .named name inner => do
    let inner' ← assign bindings inner
    return .named name inner'

def assignAll (bindings : Bindings) : List Sequence → Outcome (List Sequence)
  | [] => .ok []
  | part :: rest => do
    let part' ← assign bindings part
    let rest' ← assignAll bindings rest
    return part' :: rest'

end

end Sequence

def Circuit.assign (bindings : Bindings) (circuit : Circuit) : Outcome Circuit := do
  let sequence ← circuit.sequence.assign bindings
  return { circuit with sequence }

/-- Assigns to any node. Registers and series hold no variables. -/
def Node.assign (bindings : Bindings) : Node → Outcome Node
  | scalar value => scalar <$> value.assign bindings.scalars
  | waveform value => waveform <$> value.assign bindings.scalars
  | modulation value => modulation <$> value.assign bindings
  | field value => field <$> value.assign bindings
  | pulse value => pulse <$> value.assign bindings
  | sequence value => sequence <$> value.assign bindings
  | circuit value => circuit <$> value.assign bindings
  | register value => .ok (register value)
  | series value => .ok (series value)

end Analog
