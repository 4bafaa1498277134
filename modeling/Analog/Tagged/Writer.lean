import Analog.Tagged.Node

/-!
# Writing the tagged form

In its tagged form every node is a list whose head says what it is. A waveform that holds
a native function has no tagged form.
-/

set_option autoImplicit false

namespace Analog

def absentBound : String := "_"

def numberTerm (value : Decimal) : Term := .symbol value.toText

def numbersTerm (values : List Decimal) : Term := .array (values.map numberTerm)

namespace Scalar

mutual

def write : Scalar → Term
  | .literal value => .tagged "literal" [numberTerm value]
  | .variable name => .tagged "variable" [.symbol name]
  | .assigned name value => .tagged "assigned_variable" [.symbol name, numberTerm value]
  | .negative operand => .tagged "negative" [write operand]
  | .add left right => .tagged "add" [write left, write right]
  | .mul left right => .tagged "mul" [write left, write right]
  | .div left right => .tagged "div" [write left, write right]
  | .min operands => .tagged "min" (writeAll operands)
  | .max operands => .tagged "max" (writeAll operands)
  | .slice extent start stop =>
    .tagged "slice" [write extent, writeBound start, writeBound stop]

def writeAll : List Scalar → List Term
  | [] => []
  | operand :: rest => write operand :: writeAll rest

def writeBound : Option Scalar → Term
  | none => .symbol absentBound
  | some bound => write bound

end

end Scalar

def FillValue.write : FillValue → Term
  | .explicit value => value.write
  | .boundary side => .symbol side.name

namespace Waveform

mutual

def write : Waveform → Outcome Term
  | .constant value duration => .ok (.tagged "constant_waveform" [value.write, duration.write])
  | .ramp start stop duration =>
    .ok (.tagged "linear_waveform" [start.write, stop.write, duration.write])
  | .poly coefficients duration =>
    .ok (.tagged "poly_waveform" [.array (Scalar.writeAll coefficients), duration.write])
  | .native name function duration parameters =>
    .error (.unserializable (Waveform.native name function duration parameters).text)
  | .negative inner => do
    let term ← write inner
    return .tagged "negative_waveform" [term]
  | .add left right => do
    let leftTerm ← write left
    let rightTerm ← write right
    return .tagged "add_waveform" [leftTerm, rightTerm]
  | .scale factor inner => do
    let term ← write inner
    return .tagged "scale_waveform" [factor.write, term]
  | .slice inner interval => do
    let term ← write inner
    return .tagged "slice_waveform"
      [term, Scalar.writeBound interval.start, Scalar.writeBound interval.stop]
  | .append parts => do
    let terms ← writeAll parts
    return .tagged "append_waveform" terms
  | .record name inner side => do
    let term ← write inner
    return .tagged "record_waveform" [.symbol name, term, .symbol side.name]
  | .sample inner step interpolation => do
    let term ← write inner
    return .tagged "sample_waveform" [term, step.write, .symbol interpolation.name]
  | .smooth inner radius kernel => do
    let term ← write inner
    return .tagged "smooth_waveform" [term, radius.write, .symbol kernel.name]
  | .aligned inner alignment fill => do
    let term ← write inner
    return .tagged "aligned_waveform" [term, .symbol alignment.name, fill.write]

def writeAll : List Waveform → Outcome (List Term)
  | [] => .ok []
  | part :: rest => do
    let term ← write part
    let terms ← writeAll rest
    return term :: terms

end

end Waveform

def Modulation.write : Modulation → Term
  | .uniform => .tagged "uniform" []
  | .vector name => .tagged "run_time_vector" [.symbol name]
  | .assignedVector name values =>
    .tagged "assigned_run_time_vector" [.symbol name, numbersTerm values]
  | .scaled locations =>
    .tagged "scaled_locations" (locations.map fun location =>
      .tagged "location" [.symbol (toString location.site.toNat), location.weight.write])

def Drive.write (drive : Drive) : Outcome Term := do
  let term ← drive.waveform.write
  return .tagged "drive" [drive.target.write, term]

def Field.write (field : Field) : Outcome Term := do
  let terms ← field.drives.mapM Drive.write
  return .tagged "field" terms

namespace Pulse

def writeFields (fields : PerField Field) : Outcome Term := do
  let terms ← fields.entries.mapM fun entry => do
    let term ← entry.2.write
    return Term.tagged entry.1.name [term]
  return .tagged "pulse" terms

mutual

def write : Pulse → Outcome Term
  | .plain fields => writeFields fields
  | .append parts => do
    let terms ← writeAll parts
    return .tagged "append_pulse" terms
  | .slice inner interval => do
    let term ← write inner
    return .tagged "slice_pulse"
      [term, Scalar.writeBound interval.start, Scalar.writeBound interval.stop]
  | .named name inner => do
    let term ← write inner
    return .tagged "named_pulse" [.symbol name, term]

def writeAll : List Pulse → Outcome (List Term)
  | [] => .ok []
  | part :: rest => do
    let term ← write part
    let terms ← writeAll rest
    return term :: terms

end

end Pulse

namespace Sequence

def writePulses (pulses : PerCoupling Pulse) : Outcome Term := do
  let terms ← pulses.entries.mapM fun entry => do
    let term ← entry.2.write
    return Term.tagged entry.1.name [term]
  return .tagged "sequence" terms

mutual

def write : Sequence → Outcome Term
  | .plain pulses => writePulses pulses
  | .append parts => do
    let terms ← writeAll parts
    return .tagged "append_sequence" terms
  | .slice inner interval => do
    let term ← write inner
    return .tagged "slice_sequence"
      [term, Scalar.writeBound interval.start, Scalar.writeBound interval.stop]
  | .named name inner => do
    let term ← write inner
    return .tagged "named_sequence" [.symbol name, term]

def writeAll : List Sequence → Outcome (List Term)
  | [] => .ok []
  | part :: rest => do
    let term ← write part
    let terms ← writeAll rest
    return term :: terms

end

end Sequence

def Site.write (site : Site) : Term :=
  .tagged (if site.filled then "site" else "vacant")
    [numberTerm site.position.x, numberTerm site.position.y]

/-- Sites are written one by one, so a tiled layout reads back as a plain register. -/
def writeSites (sites : List Site) : Term :=
  .tagged "register" (sites.map Site.write)

def Circuit.write (circuit : Circuit) : Outcome Term := do
  let term ← circuit.sequence.write
  return .tagged "circuit" [writeSites circuit.layout.sites, term]

def Series.tag : Series → String
  | .linear _ => "piecewise_linear"
  | .constant _ => "piecewise_constant"

def Series.write (series : Series) : Term :=
  .tagged series.tag
    [numbersTerm (Breakpoints.times series.points), numbersTerm (Breakpoints.values series.points)]

namespace Node

def write : Node → Outcome Term
  | scalar value => .ok value.write
  | waveform value => value.write
  | modulation value => .ok value.write
  | field value => value.write
  | pulse value => value.write
  | sequence value => value.write
  | circuit value => value.write
  | register value => .ok (writeSites value.sites)
  | series value => .ok value.write

def code (node : Node) : Outcome String := do
  let term ← node.write
  return term.toText

end Node

end Analog
