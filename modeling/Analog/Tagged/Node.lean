import Analog.Circuit
import Analog.Series

/-!
# Nodes

Everything that has a tagged form: scalars, waveforms and what is built from them, and
registers and series. Reading a tagged form also meets fragments, which have a meaning
only inside a node.
-/

set_option autoImplicit false

namespace Analog

inductive Node where
  | scalar (value : Scalar)
  | waveform (value : Waveform)
  | modulation (value : Modulation)
  | field (value : Field)
  | pulse (value : Pulse)
  | sequence (value : Sequence)
  | circuit (value : Circuit)
  | register (value : Register)
  | series (value : Series)

namespace Node

def text : Node → String
  | scalar value => value.text
  | waveform value => value.text
  | modulation value => value.text
  | field value => value.text
  | pulse value => value.text
  | sequence value => value.text
  | circuit value => value.text
  | register value => value.text
  | series value => value.text

def fingerprint? : Node → Option UInt64
  | scalar value => some value.fingerprint
  | waveform value => some value.fingerprint
  | modulation value => some value.fingerprint
  | field value => some value.fingerprint
  | pulse value => some value.fingerprint
  | sequence value => some value.fingerprint
  | circuit value => some value.fingerprint
  | register value => some value.fingerprint
  | series _ => none

/-- The duration of a node that lasts for a time, as an expression. -/
def symbolicDuration? : Node → Option Scalar
  | waveform value => some value.symbolicDuration
  | field value => some value.symbolicDuration
  | pulse value => some value.symbolicDuration
  | sequence value => some value.symbolicDuration
  | circuit value => some value.sequence.symbolicDuration
  | _ => none

def sequence? : Node → Option Sequence
  | sequence value => some value
  | circuit value => some value.sequence
  | _ => none

def same : Node → Node → Bool
  | scalar left, scalar right => left.same right
  | waveform left, waveform right => left.same right
  | modulation left, modulation right => left.same right
  | field left, field right => left.same right
  | pulse left, pulse right => left.same right
  | sequence left, sequence right => left.same right
  | circuit left, circuit right => left.same right
  | register left, register right => left == right
  | series left, series right => left.same right
  | _, _ => false

end Node

/-- What a term of a tagged form stands for. -/
inductive Fragment where
  | node (value : Node)
  /-- A symbol by itself. -/
  | symbol (name : String)
  | array (items : List Fragment)
  /-- A value under the name of a field or a coupling. -/
  | entry (name : String) (value : Fragment)
  | location (value : Location)
  | drive (value : Drive)
  | site (value : Site)

/-- Names of the variants, as they are shown when a node of another sort was expected. -/
def Scalar.variantName : Scalar → String
  | .literal _ => "Literal"
  | .variable _ => "Variable"
  | .assigned _ _ => "AssignedVariable"
  | .negative _ => "Negative"
  | .add _ _ => "Add"
  | .mul _ _ => "Mul"
  | .div _ _ => "Div"
  | .min _ => "Min"
  | .max _ => "Max"
  | .slice _ _ _ => "Slice"

def Waveform.variantName : Waveform → String
  | .constant .. => "Constant"
  | .ramp .. => "Linear"
  | .poly .. => "Poly"
  | .native .. => "Native"
  | .negative .. => "Negative"
  | .add .. => "Add"
  | .scale .. => "Scale"
  | .slice .. => "Slice"
  | .append .. => "Append"
  | .record .. => "Record"
  | .sample .. => "Sample"
  | .smooth .. => "Smooth"
  | .aligned .. => "Aligned"

def Modulation.variantName : Modulation → String
  | .uniform => "UniformModulation"
  | .vector _ => "RunTimeVector"
  | .assignedVector _ _ => "AssignedRunTimeVector"
  | .scaled _ => "ScaledLocations"

def Pulse.variantName : Pulse → String
  | .plain _ => "Pulse"
  | .append _ => "AppendPulse"
  | .slice _ _ => "SlicePulse"
  | .named _ _ => "NamedPulse"

def Sequence.variantName : Sequence → String
  | .plain _ => "Sequence"
  | .append _ => "AppendSequence"
  | .slice _ _ => "SliceSequence"
  | .named _ _ => "NamedSequence"

def Node.variantName : Node → String
  | .scalar value => "*scalar." ++ value.variantName
  | .waveform value => "*waveform." ++ value.variantName
  | .modulation value => "*analog." ++ value.variantName
  | .field _ => "*analog.Field"
  | .pulse value => "*analog." ++ value.variantName
  | .sequence value => "*analog." ++ value.variantName
  | .circuit _ => "*analog.Circuit"
  | .register _ => "*register.Register"
  | .series (.linear _) => "*piecewise.Linear"
  | .series (.constant _) => "*piecewise.Constant"

def Fragment.variantName : Fragment → String
  | .node value => value.variantName
  | .symbol _ => "codec.token"
  | .array _ => "codec.array"
  | .entry _ _ => "codec.entry"
  | .location _ => "analog.Location"
  | .drive _ => "analog.Drive"
  | .site _ => "register.Site"

end Analog
