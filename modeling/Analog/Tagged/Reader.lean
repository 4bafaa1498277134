import Analog.Tagged.Writer
import Analog.Term.Reader

/-!
# Reading the tagged form

A term is read from the leaves up and from left to right. A list is read by the rule of
its tag once its elements have been read, and a rule complains about the list or about
one of its elements. Four rules rely on their last argument being a node of the right
sort: for scaled waveforms, polynomials, named pulses and named sequences a wrong last
argument aborts reading.
-/

set_option autoImplicit false

namespace Analog

open Text

namespace Fragment

def symbol? : Fragment → Option String
  | .symbol name => some name
  | _ => none

def array? : Fragment → Option (List Fragment)
  | .array items => some items
  | _ => none

def entry? : Fragment → Option (String × Fragment)
  | .entry name value => some (name, value)
  | _ => none

def location? : Fragment → Option Location
  | .location value => some value
  | _ => none

def drive? : Fragment → Option Drive
  | .drive value => some value
  | _ => none

def site? : Fragment → Option Site
  | .site value => some value
  | _ => none

def scalar? : Fragment → Option Scalar
  | .node (.scalar value) => some value
  | _ => none

def waveform? : Fragment → Option Waveform
  | .node (.waveform value) => some value
  | _ => none

def modulation? : Fragment → Option Modulation
  | .node (.modulation value) => some value
  | _ => none

def field? : Fragment → Option Field
  | .node (.field value) => some value
  | _ => none

def pulse? : Fragment → Option Pulse
  | .node (.pulse value) => some value
  | _ => none

def sequence? : Fragment → Option Sequence
  | .node (.sequence value) => some value
  | _ => none

def register? : Fragment → Option Register
  | .node (.register value) => some value
  | _ => none

end Fragment

namespace Tagged

/-- An argument of a list: the term and what it stands for. -/
structure Argument where
  term : LocatedTerm
  value : Fragment

/-- A tagged list that is being read. -/
structure Call where
  source : Source
  list : LocatedTerm
  arguments : List Argument

def complain {α : Type} (source : Source) (term : LocatedTerm) (complaint : String) : Outcome α :=
  .error (.misread ⟨source, term.span, complaint⟩)

namespace Call

def complain {α : Type} (call : Call) (complaint : String) : Outcome α :=
  Tagged.complain call.source call.list complaint

def wrongCount {α : Type} (call : Call) (expected : Nat) : Outcome α :=
  call.complain ("expected " ++ toString expected ++ " arguments, found " ++
    toString call.arguments.length)

def need {α : Type} (call : Call) (what : String) (sort : Fragment → Option α)
    (argument : Argument) : Outcome α :=
  match sort argument.value with
  | some value => .ok value
  | none => Tagged.complain call.source argument.term ("expected " ++ what)

/-- An argument that a rule relies on being of a certain sort. -/
def rely {α : Type} (sort : Fragment → Option α) (argument : Argument) : Outcome α :=
  match sort argument.value with
  | some value => .ok value
  | none => .error (.abort .missing)

def scalar (call : Call) : Argument → Outcome Scalar := call.need "scalar" Fragment.scalar?

def waveform (call : Call) : Argument → Outcome Waveform := call.need "waveform" Fragment.waveform?

def name (call : Call) : Argument → Outcome String := call.need "name" Fragment.symbol?

def word {α : Type} (call : Call) (what : String) (ofName? : String → Option α)
    (argument : Argument) : Outcome α := do
  let text ← call.need what Fragment.symbol? argument
  match ofName? text with
  | some value => return value
  | none => Tagged.complain call.source argument.term ("unknown " ++ what ++ " " ++ text)

def numberOf (call : Call) (term : LocatedTerm) (text : String) : Outcome Decimal :=
  match Decimal.ofText text with
  | .ok value => .ok value
  | .error _ => Tagged.complain call.source term ("invalid number " ++ text)

def number (call : Call) (argument : Argument) : Outcome Decimal := do
  let text ← call.need "number" Fragment.symbol? argument
  call.numberOf argument.term text

def items (call : Call) (what : String) (argument : Argument) : Outcome (List Argument) := do
  let values ← call.need what Fragment.array? argument
  return List.zipWith Argument.mk argument.term.elements values

def numbers (call : Call) (argument : Argument) : Outcome (List Decimal) := do
  let entries ← call.items "array" argument
  entries.mapM call.number

def bound (call : Call) (argument : Argument) : Outcome (Option Scalar) :=
  match argument.value with
  | .symbol name =>
    if name = absentBound then .ok none
    else Tagged.complain call.source argument.term "expected bound"
  | _ => do
    let value ← call.need "bound" Fragment.scalar? argument
    return some value

def interval (call : Call) (start stop : Argument) : Outcome Interval := do
  let startBound ← call.bound start
  let stopBound ← call.bound stop
  return ⟨startBound, stopBound⟩

end Call

def scalarNode (value : Scalar) : Fragment := .node (.scalar value)

def waveformNode (value : Waveform) : Fragment := .node (.waveform value)

namespace Rule

def literal (call : Call) : Outcome Fragment :=
  match call.arguments with
  | [value] => do
    let number ← call.number value
    return scalarNode (.literal number)
  | _ => call.wrongCount 1

def variableRule (call : Call) : Outcome Fragment :=
  match call.arguments with
  | [name] => do
    let text ← call.name name
    return scalarNode (.variable text)
  | _ => call.wrongCount 1

def assigned (call : Call) : Outcome Fragment :=
  match call.arguments with
  | [name, value] => do
    let text ← call.name name
    let number ← call.number value
    return scalarNode (.assigned text number)
  | _ => call.wrongCount 2

def negative (call : Call) : Outcome Fragment :=
  match call.arguments with
  | [operand] => do
    let value ← call.scalar operand
    return scalarNode (.negative value)
  | _ => call.wrongCount 1

def binary (build : Scalar → Scalar → Scalar) (call : Call) : Outcome Fragment :=
  match call.arguments with
  | [left, right] => do
    let leftValue ← call.scalar left
    let rightValue ← call.scalar right
    return scalarNode (build leftValue rightValue)
  | _ => call.wrongCount 2

def several (build : List Scalar → Scalar) (call : Call) : Outcome Fragment :=
  match call.arguments with
  | [] => call.complain "expected at least one operand"
  | arguments => do
    let operands ← arguments.mapM call.scalar
    return scalarNode (build operands)

def scalarSlice (call : Call) : Outcome Fragment :=
  match call.arguments with
  | [extent, start, stop] => do
    let value ← call.scalar extent
    let interval ← call.interval start stop
    return scalarNode (.slice value interval.start interval.stop)
  | _ => call.wrongCount 3

def constant (call : Call) : Outcome Fragment :=
  match call.arguments with
  | [value, duration] => do
    let valueScalar ← call.scalar value
    let durationScalar ← call.scalar duration
    return waveformNode (.constant valueScalar durationScalar)
  | _ => call.wrongCount 2

def ramp (call : Call) : Outcome Fragment :=
  match call.arguments with
  | [start, stop, duration] => do
    let startScalar ← call.scalar start
    let stopScalar ← call.scalar stop
    let durationScalar ← call.scalar duration
    return waveformNode (.ramp startScalar stopScalar durationScalar)
  | _ => call.wrongCount 3

def poly (call : Call) : Outcome Fragment :=
  match call.arguments with
  | [coefficients, duration] => do
    let items ← call.items "coefficients" coefficients
    let scalars ← items.mapM (call.need "coefficient" Fragment.scalar?)
    let durationScalar ← Call.rely Fragment.scalar? duration
    return waveformNode (.poly scalars durationScalar)
  | _ => call.wrongCount 2

def negativeWaveform (call : Call) : Outcome Fragment :=
  match call.arguments with
  | [inner] => do
    let value ← call.waveform inner
    return waveformNode (.negative value)
  | _ => call.wrongCount 1

def addWaveform (call : Call) : Outcome Fragment :=
  match call.arguments with
  | [left, right] => do
    let leftValue ← call.waveform left
    let rightValue ← call.waveform right
    return waveformNode (.add leftValue rightValue)
  | _ => call.wrongCount 2

def scaleWaveform (call : Call) : Outcome Fragment :=
  match call.arguments with
  | [factor, inner] => do
    let scalar ← call.scalar factor
    let value ← Call.rely Fragment.waveform? inner
    return waveformNode (.scale scalar value)
  | _ => call.wrongCount 2

def sliceWaveform (call : Call) : Outcome Fragment :=
  match call.arguments with
  | [inner, start, stop] => do
    let value ← call.waveform inner
    let interval ← call.interval start stop
    return waveformNode (.slice value interval)
  | _ => call.wrongCount 3

def appendWaveform (call : Call) : Outcome Fragment :=
  match call.arguments with
  | [] => call.complain "expected at least one waveform"
  | arguments => do
    let parts ← arguments.mapM call.waveform
    return waveformNode (.append parts)

def recordWaveform (call : Call) : Outcome Fragment :=
  match call.arguments with
  | [name, inner, side] => do
    let text ← call.name name
    let value ← call.waveform inner
    let recorded ← call.word "side" Side.ofName? side
    return waveformNode (.record text value recorded)
  | _ => call.wrongCount 3

def sampleWaveform (call : Call) : Outcome Fragment :=
  match call.arguments with
  | [inner, step, interpolation] => do
    let value ← call.waveform inner
    let scalar ← call.scalar step
    let kind ← call.word "interpolation" Interpolation.ofName? interpolation
    return waveformNode (.sample value scalar kind)
  | _ => call.wrongCount 3

def smoothWaveform (call : Call) : Outcome Fragment :=
  match call.arguments with
  | [inner, radius, kernel] => do
    let value ← call.waveform inner
    let scalar ← call.scalar radius
    let kind ← call.word "kernel" Kernel.ofName? kernel
    return waveformNode (.smooth value scalar kind)
  | _ => call.wrongCount 3

def fillValue (call : Call) (argument : Argument) : Outcome FillValue :=
  match argument.value with
  | .symbol _ => do
    let side ← call.word "side" Side.ofName? argument
    return .boundary side
  | _ => do
    let value ← call.scalar argument
    return .explicit value

def alignedWaveform (call : Call) : Outcome Fragment :=
  match call.arguments with
  | [inner, alignment, fill] => do
    let value ← call.waveform inner
    let side ← call.word "side" Side.ofName? alignment
    let extension ← fillValue call fill
    return waveformNode (.aligned value side extension)
  | _ => call.wrongCount 3

def uniform (call : Call) : Outcome Fragment :=
  match call.arguments with
  | [] => .ok (.node (.modulation .uniform))
  | _ => call.wrongCount 0

def vector (call : Call) : Outcome Fragment :=
  match call.arguments with
  | [name] => do
    let text ← call.name name
    return .node (.modulation (.vector text))
  | _ => call.wrongCount 1

def assignedVector (call : Call) : Outcome Fragment :=
  match call.arguments with
  | [name, values] => do
    let text ← call.name name
    let numbers ← call.numbers values
    return .node (.modulation (.assignedVector text numbers))
  | _ => call.wrongCount 2

def scaledLocations (call : Call) : Outcome Fragment := do
  let locations ← call.arguments.mapM (call.need "location" Fragment.location?)
  return .node (.modulation (.ofLocations locations))

def siteLimit : Nat := 4294967295

def siteNumber? (text : String) : Option Nat :=
  (Decimal.digitsValue? text.toList).filter fun (site : Nat) => decide (site ≤ siteLimit)

def location (call : Call) : Outcome Fragment :=
  match call.arguments with
  | [site, weight] => do
    let text ← call.need "site" Fragment.symbol? site
    match siteNumber? text with
    | none => complain call.source site.term "invalid site index"
    | some number =>
      let scalar ← call.scalar weight
      return .location ⟨.ofNat number, scalar⟩
  | _ => call.wrongCount 2

def drive (call : Call) : Outcome Fragment :=
  match call.arguments with
  | [target, waveform] => do
    let modulation ← call.need "modulation" Fragment.modulation? target
    let value ← call.waveform waveform
    return .drive ⟨modulation, value⟩
  | _ => call.wrongCount 2

def field (call : Call) : Outcome Fragment := do
  let drives ← call.arguments.mapM (call.need "drive" Fragment.drive?)
  return .node (.field (.ofDrives drives))

def entry (name : String) (call : Call) : Outcome Fragment :=
  match call.arguments with
  | [value] => .ok (.entry name value.value)
  | _ => call.wrongCount 1

def addField (call : Call) (fields : PerField Field) (argument : Argument) :
    Outcome (PerField Field) := do
  let (name, value) ← call.need "field entry" Fragment.entry? argument
  match FieldName.ofName? name, value.field? with
  | none, _ => complain call.source argument.term "expected field name"
  | some _, none => complain call.source argument.term "expected field"
  | some key, some field =>
    if (fields.get? key).isSome then complain call.source argument.term "duplicate field"
    else return fields.insert key field

def pulse (call : Call) : Outcome Fragment := do
  let fields ← call.arguments.foldlM (addField call) .empty
  return .node (.pulse (.plain fields))

def appendPulse (call : Call) : Outcome Fragment := do
  let parts ← call.arguments.mapM (call.need "pulse" Fragment.pulse?)
  return .node (.pulse (.append parts))

def slicePulse (call : Call) : Outcome Fragment :=
  match call.arguments with
  | [inner, start, stop] => do
    let value ← call.need "pulse" Fragment.pulse? inner
    let interval ← call.interval start stop
    return .node (.pulse (.slice value interval))
  | _ => call.wrongCount 3

def namedPulse (call : Call) : Outcome Fragment :=
  match call.arguments with
  | [name, inner] => do
    let text ← call.name name
    let value ← Call.rely Fragment.pulse? inner
    return .node (.pulse (.named text value))
  | _ => call.wrongCount 2

def addPulse (call : Call) (pulses : PerCoupling Pulse) (argument : Argument) :
    Outcome (PerCoupling Pulse) := do
  let (name, value) ← call.need "coupling entry" Fragment.entry? argument
  match Coupling.ofName? name, value.pulse? with
  | none, _ => complain call.source argument.term "expected level coupling"
  | some _, none => complain call.source argument.term "expected pulse"
  | some key, some pulse =>
    if (pulses.get? key).isSome then
      complain call.source argument.term "duplicate level coupling"
    else return pulses.insert key pulse

def sequence (call : Call) : Outcome Fragment := do
  let pulses ← call.arguments.foldlM (addPulse call) .empty
  return .node (.sequence (.plain pulses))

def appendSequence (call : Call) : Outcome Fragment := do
  let parts ← call.arguments.mapM (call.need "sequence" Fragment.sequence?)
  return .node (.sequence (.append parts))

def sliceSequence (call : Call) : Outcome Fragment :=
  match call.arguments with
  | [inner, start, stop] => do
    let value ← call.need "sequence" Fragment.sequence? inner
    let interval ← call.interval start stop
    return .node (.sequence (.slice value interval))
  | _ => call.wrongCount 3

def namedSequence (call : Call) : Outcome Fragment :=
  match call.arguments with
  | [name, inner] => do
    let text ← call.name name
    let value ← Call.rely Fragment.sequence? inner
    return .node (.sequence (.named text value))
  | _ => call.wrongCount 2

def circuit (call : Call) : Outcome Fragment :=
  match call.arguments with
  | [register, sequence] => do
    let sites ← call.need "register" Fragment.register? register
    let value ← call.need "sequence" Fragment.sequence? sequence
    return .node (.circuit ⟨.plain sites, value⟩)
  | _ => call.wrongCount 2

def register (call : Call) : Outcome Fragment := do
  let sites ← call.arguments.mapM (call.need "site" Fragment.site?)
  return .node (.register ⟨sites⟩)

def site (filled : Bool) (call : Call) : Outcome Fragment :=
  match call.arguments with
  | [x, y] => do
    let xValue ← call.number x
    let yValue ← call.number y
    return .site ⟨⟨xValue, yValue⟩, filled⟩
  | _ => call.wrongCount 2

/-- A series. What is wrong with its breakpoints is a complaint about the list. -/
def series (build : List Decimal → List Decimal → Outcome Series) (call : Call) :
    Outcome Fragment :=
  match call.arguments with
  | [times, values] => do
    let timeNumbers ← call.numbers times
    let valueNumbers ← call.numbers values
    match build timeNumbers valueNumbers with
    | .ok result => return .node (.series result)
    | .error failure => call.complain failure.message
  | _ => call.wrongCount 2

end Rule

/-- The rules for all tags that are not names of fields or couplings. -/
def rules : List (String × (Call → Outcome Fragment)) :=
  [("literal", Rule.literal), ("variable", Rule.variableRule),
    ("assigned_variable", Rule.assigned), ("negative", Rule.negative),
    ("add", Rule.binary .add), ("mul", Rule.binary .mul), ("div", Rule.binary .div),
    ("min", Rule.several Scalar.minimum), ("max", Rule.several Scalar.maximum),
    ("slice", Rule.scalarSlice),
    ("constant_waveform", Rule.constant), ("linear_waveform", Rule.ramp),
    ("poly_waveform", Rule.poly), ("negative_waveform", Rule.negativeWaveform),
    ("add_waveform", Rule.addWaveform), ("scale_waveform", Rule.scaleWaveform),
    ("slice_waveform", Rule.sliceWaveform), ("append_waveform", Rule.appendWaveform),
    ("record_waveform", Rule.recordWaveform), ("sample_waveform", Rule.sampleWaveform),
    ("smooth_waveform", Rule.smoothWaveform), ("aligned_waveform", Rule.alignedWaveform),
    ("uniform", Rule.uniform), ("run_time_vector", Rule.vector),
    ("assigned_run_time_vector", Rule.assignedVector),
    ("scaled_locations", Rule.scaledLocations), ("location", Rule.location),
    ("drive", Rule.drive), ("field", Rule.field),
    ("pulse", Rule.pulse), ("append_pulse", Rule.appendPulse),
    ("slice_pulse", Rule.slicePulse), ("named_pulse", Rule.namedPulse),
    ("sequence", Rule.sequence), ("append_sequence", Rule.appendSequence),
    ("slice_sequence", Rule.sliceSequence), ("named_sequence", Rule.namedSequence),
    ("circuit", Rule.circuit),
    ("register", Rule.register), ("site", Rule.site true), ("vacant", Rule.site false),
    ("piecewise_linear", Rule.series (Series.ofLists .linear)),
    ("piecewise_constant", Rule.series (Series.ofLists .constant))]

def rule? (tag : String) : Option (Call → Outcome Fragment) :=
  if (FieldName.ofName? tag).isSome || (Coupling.ofName? tag).isSome then some (Rule.entry tag)
  else rules.lookup tag

/-- What a list stands for, given its elements and what they stand for. -/
def readList (source : Source) (list : LocatedTerm) (elements : List Argument) :
    Outcome Fragment :=
  match elements with
  | [] => complain source list "empty list"
  | head :: arguments =>
    match head.value with
    | .symbol tag =>
      match rule? tag with
      | some rule => rule ⟨source, list, arguments⟩
      | none => complain source list ("unknown tag " ++ tag)
    | _ => complain source list "expected tag"

mutual

def readTerm (source : Source) : LocatedTerm → Outcome Fragment
  | .symbol _ name => .ok (.symbol name)
  | .array _ elements => do
    let values ← readTerms source elements
    return .array (values.map (·.value))
  | .list span elements => do
    let arguments ← readTerms source elements
    readList source (.list span elements) arguments

def readTerms (source : Source) : List LocatedTerm → Outcome (List Argument)
  | [] => .ok []
  | term :: rest => do
    let value ← readTerm source term
    let values ← readTerms source rest
    return ⟨term, value⟩ :: values

end

def read (source : Source) : Outcome Fragment :=
  match LocatedTerm.parse source with
  | .error error => .error (.misread error)
  | .ok none => .error (.misread ⟨source, ⟨0, 0⟩, "empty input"⟩)
  | .ok (some term) => readTerm source term

/-- The sorts of node that can be asked for. -/
inductive Expected where
  | anything
  | scalar
  | waveform
  | modulation
  | field
  | pulse
  | sequence
  | circuit
  | register
  | linear
  | constant

def Expected.ofName? (text : String) : Option Expected :=
  [("any", Expected.anything), ("scalar", .scalar), ("waveform", .waveform),
    ("modulation", .modulation), ("field", .field), ("pulse", .pulse), ("sequence", .sequence),
    ("circuit", .circuit), ("register", .register), ("linear", .linear),
    ("constant", .constant)].lookup text

def Expected.admits : Expected → Fragment → Bool
  | .anything, _ => true
  | .scalar, .node (.scalar _) => true
  | .waveform, .node (.waveform _) => true
  | .modulation, .node (.modulation _) => true
  | .field, .node (.field _) => true
  | .pulse, .node (.pulse _) => true
  | .sequence, .node (.sequence _) => true
  | .circuit, .node (.circuit _) => true
  | .register, .node (.register _) => true
  | .linear, .node (.series (.linear _)) => true
  | .constant, .node (.series (.constant _)) => true
  | _, _ => false

/-- How an expected sort is named in a complaint; sorts with several variants have no name. -/
def Expected.name : Expected → String
  | .field => "*analog.Field"
  | .circuit => "*analog.Circuit"
  | .register => "*register.Register"
  | .linear => "*piecewise.Linear"
  | .constant => "*piecewise.Constant"
  | _ => "<nil>"

/-- Reads a source that must hold a node of the expected sort. -/
def readAs (expected : Expected) (source : Source) : Outcome Fragment := do
  let fragment ← read source
  if expected.admits fragment then return fragment
  else
    .error (.misread ⟨source, ⟨0, source.text.length⟩,
      "expected " ++ expected.name ++ ", found " ++ fragment.variantName⟩)

def readCircuit (source : Source) : Outcome Circuit := do
  match ← readAs .circuit source with
  | .node (.circuit circuit) => return circuit
  | _ => .error (.abort .missing)

def inlineName : String := "<string>"

end Tagged

end Analog
