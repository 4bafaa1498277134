import Analog.Modulation
import Analog.Waveform.Duration

/-!
# Fields

A field drives the sites of a register: it holds waveforms, each under a spatial
modulation. Modulations are pairwise different, and the order of drives has no meaning.
-/

set_option autoImplicit false

namespace Analog

/-- The physical quantity that a field controls. -/
inductive FieldName where
  | detuning
  | rabiAmplitude
  | rabiPhase
  deriving DecidableEq, Inhabited

namespace FieldName

def all : List FieldName := [detuning, rabiAmplitude, rabiPhase]

def name : FieldName → String
  | detuning => "detuning"
  | rabiAmplitude => "rabi.amplitude"
  | rabiPhase => "rabi.phase"

def ofName? (text : String) : Option FieldName :=
  all.find? (·.name == text)

def code : FieldName → UInt64
  | detuning => 0
  | rabiAmplitude => 1
  | rabiPhase => 2

/-- The form into which waveforms of a field are lowered: phases jump, the rest is joined by
lines. -/
def target : FieldName → Target
  | detuning => .linear
  | rabiAmplitude => .linear
  | rabiPhase => .constant

end FieldName

structure Drive where
  target : Modulation
  waveform : Waveform

structure Field where
  drives : List Drive

/-- The longest of some durations: of none it is zero, and one stands by itself. -/
def longest : List Scalar → Scalar
  | [] => Scalar.zero
  | [duration] => duration
  | durations => Scalar.maximum durations

namespace Field

def empty : Field := ⟨[]⟩

/-- Adds a drive. The waveform of a modulation that is there already is summed. -/
def placeDrive (drive : Drive) : List Drive → List Drive
  | [] => [drive]
  | head :: rest =>
    if head.target.same drive.target then ⟨head.target, .add head.waveform drive.waveform⟩ :: rest
    else head :: placeDrive drive rest

def ofDrives (drives : List Drive) : Field :=
  ⟨drives.foldl (fun placed drive => placeDrive drive placed) []⟩

def lookup? (field : Field) (target : Modulation) : Option Waveform :=
  (field.drives.find? (·.target.same target)).map (·.waveform)

def targets (field : Field) : List Modulation :=
  field.drives.map (·.target)

def symbolicDuration (field : Field) : Scalar :=
  longest (field.drives.map (·.waveform.symbolicDuration))

def same (left right : Field) : Bool :=
  left.drives.length == right.drives.length &&
    left.drives.all fun drive => (right.lookup? drive.target).any drive.waveform.same

def fingerprint (field : Field) : UInt64 :=
  Fingerprint.unordered (Fingerprint.seed "field")
    (field.drives.map fun drive =>
      Fingerprint.mix drive.target.fingerprint drive.waveform.fingerprint)

def toTerm (field : Field) : Term :=
  .tagged "field" (field.drives.map fun drive =>
    .list [drive.target.toTerm, drive.waveform.toTerm])

def text (field : Field) : String := field.toTerm.render false

end Field

end Analog
