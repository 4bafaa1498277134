import Analog.Canonical.Waveform
import Analog.Channel
import Analog.Tagged.Node

/-!
# Canonical fields, pulses and sequences

Drives of one modulation are summed, and listed sites that are driven alike are driven
together. Nested appends are spliced, and slices that cut nothing off are dropped. A part
of zero duration is left out unless it is the only one that uses some channel.
-/

set_option autoImplicit false

namespace Analog.Canonical

def locations : List Location → Simplifying (List Location)
  | [] => pure []
  | location :: rest => do
    let weight ← scalar location.weight
    let rest' ← locations rest
    return ⟨location.site, weight⟩ :: rest'

theorem locations_eq_mapM (listed : List Location) :
    locations listed = listed.mapM fun location => do
      let weight ← scalar location.weight
      return ⟨location.site, weight⟩ := by
  induction listed with
  | nil => rw [locations, List.mapM_nil]
  | cons location rest ih => simp only [locations, List.mapM_cons, ih, bind_assoc, pure_bind]

def modulation : Modulation → Simplifying Modulation
  | .scaled listed => do
    let listed' ← locations listed
    return .ofLocations listed'
  | other => pure other

/-- The modulation of listed sites, weights of a common site added. -/
def unionOfSites (first second : List Location) : Simplifying Modulation :=
  modulation (.ofLocations (first ++ second))

/-- One drive in place of two, if they have the modulation in common, or the waveform and both
list their sites. -/
def mergePair (first second : Drive) : Simplifying (Option Drive) :=
  if first.target.same second.target then do
    let waveform ← add first.waveform second.waveform
    return some ⟨first.target, waveform⟩
  else if first.waveform.same second.waveform then
    match first.target, second.target with
    | .scaled firstSites, .scaled secondSites => do
      let target ← unionOfSites firstSites secondSites
      return some ⟨target, first.waveform⟩
    | _, _ => pure none
  else pure none

/-- Merges a drive with the first of the following ones that allows it. -/
def mergeWith (drive : Drive) : List Drive → Simplifying (Option (Drive × List Drive))
  | [] => pure none
  | next :: rest => do
    match ← mergePair drive next with
    | some merged => return some (merged, rest)
    | none =>
      match ← mergeWith drive rest with
      | some (merged, others) => return some (merged, next :: others)
      | none => return none

def mergeOnce : List Drive → Simplifying (Option (List Drive))
  | [] => pure none
  | drive :: rest => do
    match ← mergeWith drive rest with
    | some (merged, others) => return some (merged :: others)
    | none =>
      match ← mergeOnce rest with
      | some others => return some (drive :: others)
      | none => return none

/-- Merges drives until none can be merged. Every merge leaves one drive fewer. -/
def mergeDrives : (fuel : Nat) → List Drive → Simplifying (List Drive)
  | 0, drives => pure drives
  | fuel + 1, drives => do
    match ← mergeOnce drives with
    | some fewer => mergeDrives fuel fewer
    | none => return drives

def drive (given : Drive) : Simplifying Drive := do
  let target ← modulation given.target
  let waveform' ← waveform given.waveform
  return ⟨target, waveform'⟩

def field (given : Field) : Simplifying Field := do
  let drives ← given.drives.mapM drive
  let merged ← mergeDrives drives.length drives
  return .ofDrives merged

def isEmpty (length : Scalar) : Simplifying Bool := do
  let length' ← scalar length
  return length'.isZero

def coveredChannels (parts : List (Bool × List Channel)) : KeyedSet Channel :=
  parts.foldl (fun covered part => if part.1 then covered else covered.insertAll part.2) .empty

/-- Leaves out empty parts that use no channel beyond those covered so far. -/
def dropEmpty {α : Type} (covered : KeyedSet Channel) :
    List (α × Bool × List Channel) → List α
  | [] => []
  | (part, empty, channels) :: rest =>
    if empty then
      if channels.all covered.contains then dropEmpty covered rest
      else part :: dropEmpty (covered.insertAll channels) rest
    else part :: dropEmpty covered rest

/-- Leaves out empty parts that are not the only ones with some channel. -/
def retain {α : Type} (length : α → Scalar) (channels : α → List Channel) (parts : List α) :
    Simplifying (List α) := do
  let marked ← parts.mapM fun part => do
    let empty ← isEmpty (length part)
    return (part, empty, channels part)
  return dropEmpty (coveredChannels (marked.map Prod.snd)) marked

def splicePulses : Pulse → List Pulse
  | .append parts => parts
  | other => [other]

def concatenatePulses (parts : List Pulse) : Simplifying Pulse := do
  let kept ← retain Pulse.symbolicDuration (Pulse.channels .rydberg) (parts.flatMap splicePulses)
  match kept with
  | [] => return .plain .empty
  | [part] => return part
  | several => return .append several

mutual

def pulse : Pulse → Simplifying Pulse
  | .plain fields => do
    let fields' ← fields.mapM field
    return .plain fields'
  | .append parts => do
    let parts' ← pulses parts
    concatenatePulses parts'
  | .slice inner bounds => do
    let inner' ← pulse inner
    let bounds' ← interval bounds
    let length ← scalar inner'.symbolicDuration
    if coversAll bounds' length then return inner' else return .slice inner' bounds'
  | .named name inner => do
    let inner' ← pulse inner
    return .named name inner'

def pulses : List Pulse → Simplifying (List Pulse)
  | [] => pure []
  | part :: rest => do
    let part' ← pulse part
    let rest' ← pulses rest
    return part' :: rest'

end

theorem pulses_eq_mapM (parts : List Pulse) : pulses parts = parts.mapM pulse := by
  induction parts with
  | nil => rw [pulses, List.mapM_nil]
  | cons part rest ih => rw [pulses, List.mapM_cons, ih]

def spliceSequences : Sequence → List Sequence
  | .append parts => parts
  | other => [other]

def concatenateSequences (parts : List Sequence) : Simplifying Sequence := do
  let kept ← retain Sequence.symbolicDuration Sequence.channels (parts.flatMap spliceSequences)
  match kept with
  | [] => return .plain .empty
  | [part] => return part
  | several => return .append several

mutual

def sequence : Sequence → Simplifying Sequence
  | .plain pulses => do
    let pulses' ← pulses.mapM pulse
    return .plain pulses'
  | .append parts => do
    let parts' ← sequences parts
    concatenateSequences parts'
  | .slice inner bounds => do
    let inner' ← sequence inner
    let bounds' ← interval bounds
    let length ← scalar inner'.symbolicDuration
    if coversAll bounds' length then return inner' else return .slice inner' bounds'
  | .named name inner => do
    let inner' ← sequence inner
    return .named name inner'

def sequences : List Sequence → Simplifying (List Sequence)
  | [] => pure []
  | part :: rest => do
    let part' ← sequence part
    let rest' ← sequences rest
    return part' :: rest'

end

theorem sequences_eq_mapM (parts : List Sequence) : sequences parts = parts.mapM sequence := by
  induction parts with
  | nil => rw [sequences, List.mapM_nil]
  | cons part rest ih => rw [sequences, List.mapM_cons, ih]

def circuit (given : Circuit) : Simplifying Circuit := do
  let sequence' ← sequence given.sequence
  return { given with sequence := sequence' }

/-- The canonical form of a node; modulations, registers and series by themselves have none. -/
def node : Node → Simplifying Node
  | .scalar value => Node.scalar <$> scalar value
  | .waveform value => Node.waveform <$> waveform value
  | .field value => Node.field <$> field value
  | .pulse value => Node.pulse <$> pulse value
  | .sequence value => Node.sequence <$> sequence value
  | .circuit value => Node.circuit <$> circuit value
  | .modulation _ => lift (.error (.abort .missing))
  | .register _ => lift (.error (.abort .missing))
  | .series _ => lift (.error (.abort .missing))

end Analog.Canonical
