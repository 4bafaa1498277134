import Analog.Sequence

/-!
# Flat sequences

A flat sequence has one waveform for every channel: no pulse or sequence in it follows
another, is cut or carries a label. Flattening joins the parts of every channel, with
zeros where a part does not drive it, and cuts every waveform instead of the whole. It
relies on all channels of a part having one duration.
-/

set_option autoImplicit false

namespace Analog

abbrev FlatPulse := PerField Field

abbrev FlatSequence := PerCoupling FlatPulse

namespace Flat

def addTargets (targets more : List Modulation) : List Modulation :=
  more.foldl (fun found target => if found.any (·.same target) then found else found ++ [target])
    targets

/-- All modulations of one field in several pulses, in order of first use. -/
def targetsOf (name : FieldName) (parts : List FlatPulse) : List Modulation :=
  parts.foldl (fun found part =>
    match part.get? name with
    | some field => addTargets found field.targets
    | none => found) []

/-- The waveform of a channel in a part, or a zero that lasts as long as the part. -/
def pieceOf (name : FieldName) (target : Modulation) (part : FlatPulse × Scalar) : Waveform :=
  match part.1.get? name with
  | some field => (field.lookup? target).getD (Waveform.zero part.2)
  | none => Waveform.zero part.2

/-- The field of pulses one after the other, each given with its duration. -/
def joinField (name : FieldName) (parts : List (FlatPulse × Scalar)) : Field :=
  Field.ofDrives ((targetsOf name (parts.map Prod.fst)).map fun target =>
    ⟨target, .append (parts.map (pieceOf name target))⟩)

/-- Flat pulses one after the other, each given with its duration. -/
def join (parts : List (FlatPulse × Scalar)) : FlatPulse :=
  let used := FieldName.all.filter fun name => parts.any fun part => (part.1.get? name).isSome
  PerField.ofEntries (used.map fun name => (name, joinField name parts))

def cutField (interval : Interval) (field : Field) : Field :=
  Field.ofDrives (field.drives.map fun drive => ⟨drive.target, .slice drive.waveform interval⟩)

def cut (interval : Interval) (pulse : FlatPulse) : FlatPulse :=
  pulse.map (cutField interval)

end Flat

namespace Pulse

mutual

def flatten : Pulse → FlatPulse
  | .plain fields => fields
  | .append parts =>
    Flat.join ((flattenAll parts).map fun part => (part, plainDuration part))
  | .slice inner interval => Flat.cut interval (flatten inner)
  | .named _ inner => flatten inner

def flattenAll : List Pulse → List FlatPulse
  | [] => []
  | part :: rest => flatten part :: flattenAll rest

end

end Pulse

namespace FlatSequence

def toSequence (flat : FlatSequence) : Sequence :=
  .plain (flat.map Pulse.plain)

end FlatSequence

namespace Sequence

def joinFlat (parts : List FlatSequence) : FlatSequence :=
  let used := Coupling.all.filter fun coupling => parts.any fun part => (part.get? coupling).isSome
  PerCoupling.ofEntries (used.map fun coupling =>
    (coupling, Flat.join (parts.map fun part =>
      ((part.get? coupling).getD .empty, (FlatSequence.toSequence part).symbolicDuration))))

mutual

def flatten : Sequence → FlatSequence
  | .plain pulses => pulses.map Pulse.flatten
  | .append parts => joinFlat (flattenAll parts)
  | .slice inner interval => (flatten inner).map (Flat.cut interval)
  | .named _ inner => flatten inner

def flattenAll : List Sequence → List FlatSequence
  | [] => []
  | part :: rest => flatten part :: flattenAll rest

end

def isPlainPulse : Pulse → Bool
  | .plain _ => true
  | _ => false

def isFlat : Sequence → Bool
  | .plain pulses => pulses.entries.all fun entry => isPlainPulse entry.2
  | _ => false

end Sequence

end Analog
