import Analog.Channel
import Analog.Scalar.Comparison
import Analog.Stack.Comparison

/-!
# Comparison of waveforms, fields, pulses and sequences

Waveforms, pulses and sequences are compared in loops over their nodes. Fields are unordered: the
drives of the one are looked up in the other, which has as many. So are tables, whose values are
looked up by name. Everything is told apart by its fingerprint first, except intervals.
-/

set_option autoImplicit false

namespace Analog

/-- What is known of shared nodes while others are compared. -/
structure Identities where
  scalars : Identity Scalar := .unknown
  waveforms : Identity Waveform := .unknown
  fields : Identity Field := .unknown
  pulses : Identity Pulse := .unknown
  sequences : Identity Sequence := .unknown

def Identities.equalScalars (identities : Identities) : Scalar → Scalar → Bool :=
  Scalar.equal identities.scalars.known

def Interval.equal (identities : Identities) (left right : Interval) : Bool :=
  Pulse.sameOption identities.equalScalars left.start right.start &&
    Pulse.sameOption identities.equalScalars left.stop right.stop

/-- Whether both are given values, or both stand for a value at the same end. -/
def FillValue.sameKind : FillValue → FillValue → Bool
  | explicit _, explicit _ => true
  | boundary side, boundary other => side == other
  | _, _ => false

namespace Waveform

/-- Whether two nodes are of one kind and have the same attributes besides scalars and waveforms.
-/
def sameAttributes : Waveform → Waveform → Bool
  | .constant _ _, .constant _ _ => true
  | .ramp _ _ _, .ramp _ _ _ => true
  | .poly coefficients _, .poly others _ => coefficients.length == others.length
  | .native name function _ _, .native other otherFunction _ _ =>
    name == other && function == otherFunction
  | .negative _, .negative _ => true
  | .add _ _, .add _ _ => true
  | .scale _ _, .scale _ _ => true
  | .slice _ interval, .slice _ other =>
    interval.start.isNone == other.start.isNone && interval.stop.isNone == other.stop.isNone
  | .append _, .append _ => true
  | .record name _ side, .record other _ otherSide => name == other && side == otherSide
  | .sample _ _ interpolation, .sample _ _ other => interpolation == other
  | .smooth _ _ kernel, .smooth _ _ other => kernel == other
  | .aligned _ alignment fill, .aligned _ other otherFill =>
    alignment == other && fill.sameKind otherFill
  | _, _ => false

theorem children_finite (waveform : Waveform) :
    Branching.sizes sizeOf waveform.children < sizeOf waveform := by
  cases waveform with
  | append parts =>
      have := Branching.sizes_of_size_of_le parts
      simp only [children, append.sizeOf_spec]
      omega
  | _ => simp +arith [children, Branching.sizes]

instance : Branching Waveform := ⟨children, sizeOf, children_finite⟩

def comparison (identities : Identities) : Comparison Waveform where
  identity := identities.waveforms
  fingerprint := fingerprint
  agree left right :=
    left.sameAttributes right && left.scalars.isEqv right.scalars identities.equalScalars

def equal (identities : Identities) : Waveform → Waveform → Bool :=
  (comparison identities).equal

end Waveform

namespace Modulation

def equal (identities : Identities) (left right : Modulation) : Bool :=
  left.fingerprint == right.fingerprint &&
    match left, right with
    | .uniform, .uniform => true
    | .vector name, .vector other => name == other
    | .assignedVector name values, .assignedVector other otherValues =>
      name == other && values == otherValues
    | .scaled locations, .scaled others => locations.isEqv others fun location other =>
      location.site == other.site && identities.equalScalars location.weight other.weight
    | _, _ => false

end Modulation

namespace Field

variable (identities : Identities)

/-- Adds a drive. The waveform of a modulation that is there already is summed. -/
def mergeDrive (drive : Drive) : List Drive → List Drive
  | [] => [drive]
  | head :: rest =>
    if Modulation.equal identities head.target drive.target then
      ⟨head.target, .add head.waveform drive.waveform⟩ :: rest
    else head :: mergeDrive drive rest

def assemble (drives : List Drive) : Field :=
  ⟨drives.foldl (fun merged drive => mergeDrive identities drive merged) []⟩

def find? (field : Field) (target : Modulation) : Option Waveform :=
  (field.drives.find? (Modulation.equal identities ·.target target)).map (·.waveform)

def equal (left right : Field) : Bool :=
  identities.fields.known left right ||
    (left.fingerprint == right.fingerprint && left.drives.length == right.drives.length &&
      left.drives.all fun drive =>
        (right.find? identities drive.target).any (drive.waveform.equal identities))

end Field

/-- Whether two maps have as many entries, and each entry of the first has an equal one under its
key in the second. -/
def sameEntries {κ α : Type} [BEq κ] (equal : α → α → Bool) (entries others : List (κ × α)) :
    Bool :=
  entries.length == others.length &&
    entries.all fun entry => (others.lookup entry.1).any (equal entry.2)

/-- What a pulse or a sequence is, apart from the pulses or sequences inside it. -/
inductive Head (τ : Type) where
  | plain (table : τ)
  | append
  | slice (interval : Interval)
  | named (name : String)

def Head.agree {τ : Type} (sameTable : τ → τ → Bool) (sameInterval : Interval → Interval → Bool) :
    Head τ → Head τ → Bool
  | .plain table, .plain other => sameTable table other
  | .append, .append => true
  | .slice interval, .slice other => sameInterval interval other
  | .named name, .named other => name == other
  | _, _ => false

namespace Pulse

def head : Pulse → Head (PerField Field)
  | .plain fields => .plain fields
  | .append _ => .append
  | .slice _ interval => .slice interval
  | .named name _ => .named name

def children : Pulse → List Pulse
  | .plain _ => []
  | .append parts => parts
  | .slice inner _ => [inner]
  | .named _ inner => [inner]

theorem children_finite (pulse : Pulse) :
    Branching.sizes sizeOf pulse.children < sizeOf pulse := by
  cases pulse with
  | append parts =>
      have := Branching.sizes_of_size_of_le parts
      simp only [children, append.sizeOf_spec]
      omega
  | _ => simp +arith [children, Branching.sizes]

instance : Branching Pulse := ⟨children, sizeOf, children_finite⟩

def comparison (identities : Identities) : Comparison Pulse where
  identity := identities.pulses
  fingerprint := fingerprint
  agree left right := left.head.agree
    (fun fields others => sameEntries (Field.equal identities) fields.entries others.entries)
    (Interval.equal identities) right.head

def equal (identities : Identities) : Pulse → Pulse → Bool :=
  (comparison identities).equal

end Pulse

namespace Sequence

def head : Sequence → Head (PerCoupling Pulse)
  | .plain pulses => .plain pulses
  | .append _ => .append
  | .slice _ interval => .slice interval
  | .named name _ => .named name

def children : Sequence → List Sequence
  | .plain _ => []
  | .append parts => parts
  | .slice inner _ => [inner]
  | .named _ inner => [inner]

theorem children_finite (sequence : Sequence) :
    Branching.sizes sizeOf sequence.children < sizeOf sequence := by
  cases sequence with
  | append parts =>
      have := Branching.sizes_of_size_of_le parts
      simp only [children, append.sizeOf_spec]
      omega
  | _ => simp +arith [children, Branching.sizes]

instance : Branching Sequence := ⟨children, sizeOf, children_finite⟩

def comparison (identities : Identities) : Comparison Sequence where
  identity := identities.sequences
  fingerprint := fingerprint
  agree left right := left.head.agree
    (fun pulses others => sameEntries (Pulse.equal identities) pulses.entries others.entries)
    (Interval.equal identities) right.head

def equal (identities : Identities) : Sequence → Sequence → Bool :=
  (comparison identities).equal

end Sequence

def Channel.equal (identities : Identities) (left right : Channel) : Bool :=
  left.coupling == right.coupling && left.field == right.field &&
    left.target.equal identities right.target

end Analog
