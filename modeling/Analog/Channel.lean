import Analog.KeyedMap
import Analog.Sequence

/-!
# Channels

A channel is one modulation of one field of one coupling. This module finds the channels
that a sequence uses, in order of first use, and those it has to drive: a coupling that is
used at all drives every field, and a field without a modulation of its own is driven
uniformly.
-/

set_option autoImplicit false

namespace Analog

structure Channel where
  coupling : Coupling
  field : FieldName
  target : Modulation

namespace Channel

def same (left right : Channel) : Bool :=
  left.coupling == right.coupling && left.field == right.field && left.target.same right.target

def fingerprint (channel : Channel) : UInt64 :=
  Fingerprint.mixAll (Fingerprint.seed "channel")
    [channel.coupling.code, channel.field.code, channel.target.fingerprint]

instance : Keyed Channel := ⟨same, fingerprint⟩

def text (channel : Channel) : String :=
  channel.coupling.name ++ "." ++ channel.field.name ++ "[" ++ channel.target.text ++ "]"

/-- Channels without repetition, in order of first occurrence. -/
def unique (channels : List Channel) : List Channel :=
  (KeyedSet.empty.insertAll channels).items

end Channel

def PerField.channels (coupling : Coupling) (fields : PerField Field) : List Channel :=
  fields.entries.flatMap fun entry =>
    entry.2.targets.map fun target => ⟨coupling, entry.1, target⟩

def Pulse.channels (coupling : Coupling) (pulse : Pulse) : List Channel :=
  pulse.plains.flatMap (PerField.channels coupling)

/-- The channels used in a sequence, in order of first use. -/
def Sequence.channels (sequence : Sequence) : List Channel :=
  Channel.unique (sequence.plains.flatMap fun pulses =>
    pulses.entries.flatMap fun entry => entry.2.channels entry.1)

/-- The modulations that every coupling has to drive, by field. Fields are given for couplings
in use only. -/
abbrev Requirements := PerCoupling (PerField (List Modulation))

namespace Requirements

/-- The modulations of one field among some channels, or the uniform one if there is none. -/
def targetsOf (channels : List Channel) (coupling : Coupling) (field : FieldName) :
    List Modulation :=
  let used := channels.filter fun channel => channel.coupling == coupling && channel.field == field
  if used.isEmpty then [.uniform] else used.map (·.target)

/-- What channels in use require of every sequence that goes with them. -/
def ofChannels (channels : List Channel) : Requirements :=
  let used := Coupling.all.filter fun coupling => channels.any (·.coupling == coupling)
  PerCoupling.ofEntries (used.map fun coupling =>
    (coupling, PerField.ofEntries (FieldName.all.map fun field =>
      (field, targetsOf channels coupling field))))

def channels (requirements : Requirements) : List Channel :=
  requirements.entries.flatMap fun (coupling, fields) =>
    fields.entries.flatMap fun (field, targets) =>
      targets.map fun target => ⟨coupling, field, target⟩

end Requirements

end Analog
