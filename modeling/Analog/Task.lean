import Analog.Assignment
import Analog.Canonical.Circuit
import Analog.Device
import Analog.Padding
import Analog.Records
import Analog.Routine
import Analog.Sequence.Flat
import Analog.Series.Validation

/-!
# Compiled tasks

Compiling a batch of a routine binds all variables, completes the sequence, and lowers
every channel to a series that the device permits. The result is a task: for every
channel the weights of all sites and the series that drives them.
-/

set_option autoImplicit false

namespace Analog

structure CompiledChannel where
  channel : Channel
  /-- The weight of the channel on every site. -/
  coefficients : List Decimal
  series : Series

structure Task where
  batch : Nat
  /-- All bindings, recorded values among them. -/
  bindings : Bindings
  sites : List Site
  /-- Where the sites of a tiled register belong. -/
  mappings : List SiteMapping
  duration : Decimal
  /-- Channels by coupling, field and drive. -/
  channels : List CompiledChannel

/-- The weight of a modulation on every site. A site of a tiled register has the weight of the
site of the base register for which it stands. -/
def Layout.coefficients (bindings : ScalarBindings) (modulation : Modulation) :
    Layout → Outcome (List Decimal)
  | .plain register => modulation.coefficients bindings register.size
  | .tiled tiling => do
    let base ← modulation.coefficients bindings tiling.base.size
    return tiling.spread base

def Layout.mappings : Layout → List SiteMapping
  | .plain _ => []
  | .tiled tiling => tiling.mappings

namespace CompiledChannel

def lower [Natives] (bindings : ScalarBindings) (layout : Layout) (channel : Channel)
    (waveform : Waveform) : Outcome CompiledChannel := do
  let coefficients ← layout.coefficients bindings channel.target
  waveform.validate bindings channel.field.target
  let series ← waveform.lower bindings channel.field.target
  return ⟨channel, coefficients, series⟩

def violation? (range : PermittedRange) (points : List Breakpoint) : Option Breakpoint :=
  points.find? fun point => !range.contains point.value

/-- Checks a channel that drives all sites alike. Others are not checked, since their effect
depends on the calibration of each site. -/
def checkRange (device : Device) (compiled : CompiledChannel) : Outcome Unit :=
  match compiled.channel.target with
  | .uniform =>
    match device.range? compiled.channel.coupling compiled.channel.field with
    | none => .ok ()
    | some range =>
      match violation? range compiled.series.points with
      | none => .ok ()
      | some point =>
        .error (.outOfBounds compiled.channel.text point.time point.value range.lower range.upper)
  | _ => .ok ()

end CompiledChannel

namespace FlatSequence

/-- All channels with their waveforms, by coupling, field and drive. -/
def drives (flat : FlatSequence) : List (Channel × Waveform) :=
  flat.entries.flatMap fun (coupling, fields) =>
    fields.entries.flatMap fun (name, field) =>
      field.drives.map fun drive => (⟨coupling, name, drive.target⟩, drive.waveform)

end FlatSequence

namespace Routine

variable [Natives]

/-- The circuit of a batch, with a value for every variable, and all bindings. -/
def bound (routine : Routine) (batch : Nat) (arguments : List Decimal) :
    Outcome (Circuit × Bindings) := do
  let given ← routine.bindings batch arguments
  let bindings ← routine.circuit.sequence.recordedBindings given
  let circuit ← routine.circuit.assign bindings
  circuit.sequence.uses.distinct.check
  return (circuit, bindings)

/-- A canonical sequence that drives every channel from start to end. -/
def complete (bindings : ScalarBindings) (sequence : Sequence) : Outcome Sequence := do
  let canonical ← Canonical.afresh (Canonical.sequence sequence)
  let padded ← canonical.pad bindings
  Canonical.afresh (Canonical.sequence padded)

def compileChannel (device : Device) (bindings : ScalarBindings) (layout : Layout)
    (channel : Channel) (waveform : Waveform) : Outcome CompiledChannel := do
  let compiled ← (CompiledChannel.lower bindings layout channel waveform).inContext
    ("channel " ++ channel.text)
  compiled.checkRange device
  return compiled

def compileBatch (routine : Routine) (device : Device) (arguments : List Decimal) (batch : Nat) :
    Outcome Task := do
  let (circuit, bindings) ← routine.bound batch arguments
  let sequence ← complete bindings.scalars circuit.sequence
  let flat := sequence.flatten
  let whole := FlatSequence.toSequence flat
  match device.maxTime with
  | some limit => whole.checkDuration bindings.scalars limit
  | none => pure ()
  let duration ← whole.symbolicDuration.eval bindings.scalars
  let channels ← (FlatSequence.drives flat).mapM fun (channel, waveform) =>
    compileChannel device bindings.scalars circuit.layout channel waveform
  return ⟨batch, bindings, circuit.layout.sites, circuit.layout.mappings, duration, channels⟩

def compile (routine : Routine) (device : Device) (arguments : List Decimal) :
    Outcome (List Task) :=
  (List.range routine.batchCount).mapM fun batch =>
    inBatch batch (routine.compileBatch device arguments batch)

end Routine

end Analog
