import Analog.Channel
import Analog.Waveform.Signal

/-!
# Padding

Padding completes a sequence so that every coupling drives every required channel, and so
that all channels last equally long. The waveforms of a pulse are extended to the longest
one, and the pulses of a sequence likewise. A channel that is not driven gets zero. An
aligned waveform is extended at the side opposite to its alignment with its fill value,
any other one at its end with zero.
-/

set_option autoImplicit false

namespace Analog

def FillValue.resolve [Natives] (bindings : ScalarBindings) (inner : Waveform) (duration : Decimal) :
    FillValue → Outcome Scalar
  | .explicit value => .ok value
  | .boundary .left => do
    let value ← inner.valueAt bindings 0
    return .literal value
  | .boundary .right => do
    let value ← inner.valueAt bindings duration
    return .literal value

namespace Waveform

/-- The waveform that is to be extended, and the advice on how to do it. -/
def alignment? : Waveform → Waveform × Option (Side × FillValue)
  | .aligned inner alignment fill => (inner, some (alignment, fill))
  | other => (other, none)

/-- Extends a waveform to a duration. One that lasts long enough only loses its alignment. -/
def pad [Natives] (bindings : ScalarBindings) (target : Decimal) (waveform : Waveform) :
    Outcome Waveform := do
  let (inner, advice) := waveform.alignment?
  let current ← inner.duration bindings
  let remainder := target - current
  if !remainder.isPositive then return inner
  else
    match advice with
    | none => return .append [inner, .zero (.literal remainder)]
    | some (side, fill) =>
      let value ← fill.resolve bindings inner current
      let padding := Waveform.constant value (.literal remainder)
      match side with
      | .left => return .append [inner, padding]
      | .right => return .append [padding, inner]

end Waveform

namespace Padding

def longestDrive (bindings : ScalarBindings) : List Drive → Outcome Decimal
  | [] => .ok 0
  | drive :: rest => do
    let first ← drive.waveform.duration bindings
    let others ← longestDrive bindings rest
    return max first others

def zeroDrives (duration : Decimal) (targets : List Modulation) : List Drive :=
  targets.map fun target => ⟨target, .zero (.literal duration)⟩

def zeroPulse (duration : Decimal) (required : PerField (List Modulation)) : Pulse :=
  .plain (required.map fun targets => .ofDrives (zeroDrives duration targets))

def extend (total : Decimal) (required : PerField (List Modulation)) (padded : Pulse)
    (duration : Decimal) : Pulse :=
  let remainder := total - duration
  if remainder.isPositive then .append [padded, zeroPulse remainder required] else padded

variable [Natives]

/-- Extends the drives of a field and adds zeros for modulations that are missing. -/
def field (bindings : ScalarBindings) (duration : Decimal) (targets : List Modulation)
    (drives : List Drive) : Outcome Field := do
  let padded ← drives.mapM fun drive => do
    let waveform ← drive.waveform.pad bindings duration
    return Drive.mk drive.target waveform
  let missing := targets.filter fun target => !drives.any (·.target.same target)
  return .ofDrives (padded ++ zeroDrives duration missing)

/-- Pads the fields of a plain pulse to a common duration. -/
def plainPulse (bindings : ScalarBindings) (required : PerField (List Modulation))
    (fields : PerField Field) : Outcome (PerField Field) := do
  let duration ← longestDrive bindings (fields.entries.flatMap (·.2.drives))
  let names := FieldName.all.filter fun name =>
    (fields.get? name).isSome || (required.get? name).isSome
  let padded ← names.mapM fun name => do
    let drives := ((fields.get? name).map (·.drives)).getD []
    let result ← field bindings duration ((required.get? name).getD []) drives
    return (name, result)
  return .ofEntries padded

mutual

def pulse (bindings : ScalarBindings) (required : PerField (List Modulation)) :
    Pulse → Outcome Pulse
  | .plain fields => do
    let padded ← plainPulse bindings required fields
    return .plain padded
  | .append parts => do
    let padded ← pulses bindings required parts
    return .append padded
  | .slice inner interval => do
    let padded ← pulse bindings required inner
    return .slice padded interval
  | .named name inner => do
    let padded ← pulse bindings required inner
    return .named name padded

def pulses (bindings : ScalarBindings) (required : PerField (List Modulation)) :
    List Pulse → Outcome (List Pulse)
  | [] => .ok []
  | part :: rest => do
    let padded ← pulse bindings required part
    let others ← pulses bindings required rest
    return padded :: others

end

/-- Pads the pulses of a plain sequence to a common duration. -/
def plainSequence (bindings : ScalarBindings) (requirements : Requirements)
    (pulses : PerCoupling Pulse) : Outcome (PerCoupling Pulse) := do
  let couplings := Coupling.all.filter fun coupling =>
    (pulses.get? coupling).isSome || (requirements.get? coupling).isSome
  let padded ← couplings.mapM fun coupling => do
    let required := (requirements.get? coupling).getD .empty
    let given := (pulses.get? coupling).getD (.plain .empty)
    let result ← pulse bindings required given
    let duration ← result.symbolicDuration.eval bindings
    return (coupling, required, result, duration)
  let total := padded.foldl (fun longest (_, _, _, duration) => max longest duration) 0
  return .ofEntries (padded.map fun (coupling, required, result, duration) =>
    (coupling, extend total required result duration))

mutual

def sequence (bindings : ScalarBindings) (requirements : Requirements) :
    Sequence → Outcome Sequence
  | .plain pulses => do
    let padded ← plainSequence bindings requirements pulses
    return .plain padded
  | .append parts => do
    let padded ← sequences bindings requirements parts
    return .append padded
  | .slice inner interval => do
    let padded ← sequence bindings requirements inner
    return .slice padded interval
  | .named name inner => do
    let padded ← sequence bindings requirements inner
    return .named name padded

def sequences (bindings : ScalarBindings) (requirements : Requirements) :
    List Sequence → Outcome (List Sequence)
  | [] => .ok []
  | part :: rest => do
    let padded ← sequence bindings requirements part
    let others ← sequences bindings requirements rest
    return padded :: others

end

end Padding

namespace Sequence

def padAgainst [Natives] (bindings : ScalarBindings) (channels : List Channel) (sequence : Sequence) :
    Outcome Sequence :=
  Padding.sequence bindings (.ofChannels channels) sequence

/-- Pads a sequence against the channels that it uses itself. -/
def pad [Natives] (bindings : ScalarBindings) (sequence : Sequence) : Outcome Sequence :=
  sequence.padAgainst bindings sequence.channels

/-- Checks that a sequence lasts no longer than permitted. -/
def checkDuration (bindings : ScalarBindings) (limit : Decimal) (sequence : Sequence) :
    Outcome Unit := do
  let duration ← sequence.symbolicDuration.eval bindings
  if limit < duration then .error (.outOfBounds "duration" duration duration 0 limit)
  else return ()

end Sequence

end Analog
