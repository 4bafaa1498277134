import Analog.Bindings
import Analog.Sequence
import Analog.Waveform.Signal

/-!
# Recorded values

A record binds a variable to the value of a waveform at one of its ends. The records of a
sequence are taken in order, nested ones before the record around them, and each may refer
to variables recorded before it.
-/

set_option autoImplicit false

namespace Analog

/-- A variable that stands for the value of a waveform at one end. -/
structure Record where
  name : String
  waveform : Waveform
  side : Side

namespace Waveform

mutual

/-- The records inside a waveform, each after those inside it. -/
def records : Waveform → List Record
  | .constant .. => []
  | .ramp .. => []
  | .poly .. => []
  | .native .. => []
  | .negative inner => records inner
  | .add left right => records left ++ records right
  | .scale _ inner => records inner
  | .slice inner _ => records inner
  | .append parts => recordsAll parts
  | .record name inner side => records inner ++ [⟨name, inner, side⟩]
  | .sample inner _ _ => records inner
  | .smooth inner _ _ => records inner
  | .aligned inner _ _ => records inner

def recordsAll : List Waveform → List Record
  | [] => []
  | part :: rest => records part ++ recordsAll rest

end

end Waveform

namespace Record

variable [Natives]

def value (bindings : ScalarBindings) (record : Record) : Outcome Decimal :=
  match record.side with
  | .left => record.waveform.valueAt bindings 0
  | .right => do
    let duration ← record.waveform.duration bindings
    record.waveform.valueAt bindings duration

def bind (bindings : Bindings) (record : Record) : Outcome Bindings := do
  let value ← record.value bindings.scalars
  bindings.bind record.name value

/-- Binds the variables of records one after the other. If one fails, the bindings reached so far
are given with the failure. -/
def bindAll (bindings : Bindings) : List Record → Bindings × Option Failure
  | [] => (bindings, none)
  | record :: rest =>
    match record.bind bindings with
    | .ok extended => bindAll extended rest
    | .error failure => (bindings, some failure)

end Record

/-- The waveforms of a plain pulse, by field and then by drive. -/
def PerField.waveforms (fields : PerField Field) : List Waveform :=
  fields.entries.flatMap fun entry => entry.2.drives.map (·.waveform)

namespace Sequence

def waveforms (sequence : Sequence) : List Waveform :=
  sequence.plains.flatMap fun pulses =>
    pulses.entries.flatMap fun entry => entry.2.plains.flatMap PerField.waveforms

def records (sequence : Sequence) : List Record :=
  sequence.waveforms.flatMap Waveform.records

variable [Natives]

/-- Extends bindings by the recorded values of a sequence, as far as possible. -/
def scanRecords (bindings : Bindings) (sequence : Sequence) : Bindings × Option Failure :=
  Record.bindAll bindings sequence.records

/-- Extends bindings by all recorded values of a sequence. -/
def recordedBindings (bindings : Bindings) (sequence : Sequence) : Outcome Bindings :=
  match sequence.scanRecords bindings with
  | (extended, none) => .ok extended
  | (_, some failure) => .error failure

end Sequence

end Analog
