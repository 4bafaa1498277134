import Analog.Proofs.Breakpoints
import Analog.Proofs.TermReadings
import Analog.Proofs.TermSpans

/-!
# The forms of tagged lists

The tag of a list says how many arguments it takes, what each of them has to be, and what the list
stands for. Nothing more than the tag has to be known of a list to tell what kind of thing it stands
for, so whether a list is well-formed can be seen without reading anything.
-/

set_option autoImplicit false

namespace Analog

namespace Tagged

/-- The kinds of things that terms stand for. -/
inductive Kind where
  | symbol
  | array
  | entry
  | scalar
  | waveform
  | modulation
  | location
  | drive
  | field
  | pulse
  | sequence
  | circuit
  | register
  | site
  | series
  deriving DecidableEq

end Tagged

open Tagged

def Node.kind : Node → Kind
  | .scalar _ => .scalar
  | .waveform _ => .waveform
  | .modulation _ => .modulation
  | .field _ => .field
  | .pulse _ => .pulse
  | .sequence _ => .sequence
  | .circuit _ => .circuit
  | .register _ => .register
  | .series _ => .series

def Fragment.kind : Fragment → Kind
  | .node value => value.kind
  | .symbol _ => .symbol
  | .array _ => .array
  | .entry _ _ => .entry
  | .location _ => .location
  | .drive _ => .drive
  | .site _ => .site

namespace Tagged

/-- What a tag asks of one of its arguments. -/
inductive Parameter where
  | anything
  /-- A term that stands for a thing of the kind. -/
  | kind (kind : Kind)
  /-- A symbol that fits. -/
  | word (fits : String → Bool)
  | either (first second : Parameter)
  | arrayOf (item : Parameter)
  /-- A thing of the kind under a name that fits. -/
  | entry (fits : String → Bool) (kind : Kind)

/-- What a tag asks of its arguments together. -/
inductive Shape where
  /-- As many arguments as parameters, each for its parameter. -/
  | each (parameters : List Parameter)
  /-- A least number of arguments, all for one parameter. -/
  | all (least : Nat) (parameter : Parameter)
  /-- Any number of arguments for one parameter, no two of them with the same tag. -/
  | table (parameter : Parameter)
  /-- The times and the values of breakpoints. -/
  | breakpoints

/-- What a tagged list stands for, and what it needs. -/
structure Form where
  result : Kind
  shape : Shape

namespace Parameter

def scalar : Parameter := .kind .scalar

def waveform : Parameter := .kind .waveform

def name : Parameter := .kind .symbol

def number : Parameter := .word fun text => (Decimal.ofText text).toOption.isSome

def numbers : Parameter := .arrayOf number

def bound : Parameter := .either (.word (· == absentBound)) scalar

def oneOf {α : Type} (ofName? : String → Option α) : Parameter :=
  .word fun text => (ofName? text).isSome

def side : Parameter := oneOf Side.ofName?

def under {α : Type} (ofName? : String → Option α) (wanted : Kind) : Parameter :=
  .entry (fun text => (ofName? text).isSome) wanted

end Parameter

open Parameter in
/-- The forms of all tags that are not names of fields or couplings. -/
def forms : List (String × Form) :=
  [("literal", ⟨.scalar, .each [number]⟩), ("variable", ⟨.scalar, .each [name]⟩),
    ("assigned_variable", ⟨.scalar, .each [name, number]⟩), ("negative", ⟨.scalar, .each [scalar]⟩),
    ("add", ⟨.scalar, .each [scalar, scalar]⟩), ("mul", ⟨.scalar, .each [scalar, scalar]⟩),
    ("div", ⟨.scalar, .each [scalar, scalar]⟩),
    ("min", ⟨.scalar, .all 1 scalar⟩), ("max", ⟨.scalar, .all 1 scalar⟩),
    ("slice", ⟨.scalar, .each [scalar, bound, bound]⟩),
    ("constant_waveform", ⟨.waveform, .each [scalar, scalar]⟩),
    ("linear_waveform", ⟨.waveform, .each [scalar, scalar, scalar]⟩),
    ("poly_waveform", ⟨.waveform, .each [.arrayOf scalar, scalar]⟩),
    ("negative_waveform", ⟨.waveform, .each [waveform]⟩),
    ("add_waveform", ⟨.waveform, .each [waveform, waveform]⟩),
    ("scale_waveform", ⟨.waveform, .each [scalar, waveform]⟩),
    ("slice_waveform", ⟨.waveform, .each [waveform, bound, bound]⟩),
    ("append_waveform", ⟨.waveform, .all 1 waveform⟩),
    ("record_waveform", ⟨.waveform, .each [name, waveform, side]⟩),
    ("sample_waveform", ⟨.waveform, .each [waveform, scalar, oneOf Interpolation.ofName?]⟩),
    ("smooth_waveform", ⟨.waveform, .each [waveform, scalar, oneOf Kernel.ofName?]⟩),
    ("aligned_waveform", ⟨.waveform, .each [waveform, side, .either side scalar]⟩),
    ("uniform", ⟨.modulation, .each []⟩), ("run_time_vector", ⟨.modulation, .each [name]⟩),
    ("assigned_run_time_vector", ⟨.modulation, .each [name, numbers]⟩),
    ("scaled_locations", ⟨.modulation, .all 0 (.kind .location)⟩),
    ("location", ⟨.location, .each [oneOf Rule.siteNumber?, scalar]⟩),
    ("drive", ⟨.drive, .each [.kind .modulation, waveform]⟩),
    ("field", ⟨.field, .all 0 (.kind .drive)⟩),
    ("pulse", ⟨.pulse, .table (under FieldName.ofName? .field)⟩),
    ("append_pulse", ⟨.pulse, .all 0 (.kind .pulse)⟩),
    ("slice_pulse", ⟨.pulse, .each [.kind .pulse, bound, bound]⟩),
    ("named_pulse", ⟨.pulse, .each [name, .kind .pulse]⟩),
    ("sequence", ⟨.sequence, .table (under Coupling.ofName? .pulse)⟩),
    ("append_sequence", ⟨.sequence, .all 0 (.kind .sequence)⟩),
    ("slice_sequence", ⟨.sequence, .each [.kind .sequence, bound, bound]⟩),
    ("named_sequence", ⟨.sequence, .each [name, .kind .sequence]⟩),
    ("circuit", ⟨.circuit, .each [.kind .register, .kind .sequence]⟩),
    ("register", ⟨.register, .all 0 (.kind .site)⟩),
    ("site", ⟨.site, .each [number, number]⟩), ("vacant", ⟨.site, .each [number, number]⟩),
    ("piecewise_linear", ⟨.series, .breakpoints⟩), ("piecewise_constant", ⟨.series, .breakpoints⟩)]

def form? (tag : String) : Option Form :=
  if tag ∈ entryTags then some ⟨.entry, .each [.anything]⟩ else forms.lookup tag

def relyingTags : List String :=
  ["scale_waveform", "poly_waveform", "named_pulse", "named_sequence"]

end Tagged

namespace LocatedTerm

def name? : LocatedTerm → Option String
  | .symbol _ name => some name
  | _ => none

def tag? : LocatedTerm → Option String
  | .list _ (head :: _) => head.name?
  | _ => none

def items? : LocatedTerm → Option (List LocatedTerm)
  | .array _ elements => some elements
  | _ => none

def entry? : LocatedTerm → Option (String × LocatedTerm)
  | .list _ [.symbol _ tag, value] => some (tag, value)
  | _ => none

def arguments (list : LocatedTerm) : List LocatedTerm := list.elements.tail

def form? (list : LocatedTerm) : Option Form := list.tag?.bind Tagged.form?

/-- The kind of thing that a term stands for, if it is well-formed. -/
def kind? : LocatedTerm → Option Kind
  | .symbol _ _ => some .symbol
  | .array _ _ => some .array
  | .list span elements => (LocatedTerm.list span elements).form?.map (·.result)

def number? (term : LocatedTerm) : Option Decimal :=
  term.name?.bind fun text => (Decimal.ofText text).toOption

def numbers (term : LocatedTerm) : List Decimal := term.elements.filterMap number?

end LocatedTerm

instance Breakpoints.decidablePaired (timeList valueList : List Decimal) :
    Decidable (Paired timeList valueList) :=
  decidable_of_iff (timeList.length = valueList.length ∧ timeList.head? = some 0 ∧
      timeList.Pairwise (· < ·))
    ⟨fun ⟨sameLength, starts, increasing⟩ => ⟨sameLength, starts, increasing⟩,
      fun paired => ⟨paired.sameLength, paired.starts, paired.increasing⟩⟩

namespace Tagged

def Parameter.admits : Parameter → LocatedTerm → Bool
  | .anything, _ => true
  | .kind wanted, term => decide (term.kind? = some wanted)
  | .word fits, term => term.name?.any fits
  | .either first second, term => first.admits term || second.admits term
  | .arrayOf item, term => term.items?.any (·.all item.admits)
  | .entry fits wanted, term =>
    term.entry?.any fun (tag, value) => fits tag && decide (value.kind? = some wanted)

namespace Shape

def admitsEach : List Parameter → List LocatedTerm → Bool
  | [], [] => true
  | parameter :: parameters, argument :: arguments =>
    parameter.admits argument && admitsEach parameters arguments
  | _, _ => false

def admits : Shape → List LocatedTerm → Bool
  | .each parameters, arguments => admitsEach parameters arguments
  | .all least parameter, arguments =>
    decide (least ≤ arguments.length) && arguments.all parameter.admits
  | .table parameter, arguments =>
    arguments.all parameter.admits && decide (arguments.map (·.tag?)).Nodup
  | .breakpoints, [times, values] =>
    Parameter.numbers.admits times && Parameter.numbers.admits values &&
      decide (Breakpoints.Paired times.numbers values.numbers)
  | .breakpoints, _ => false

/-- Whether there are as many arguments as parameters, and the last of them is the only one that is
wrong. -/
def lastWrong : List Parameter → List LocatedTerm → Bool
  | [parameter], [argument] => !parameter.admits argument
  | parameter :: parameters, argument :: arguments =>
    parameter.admits argument && lastWrong parameters arguments
  | _, _ => false

def lacksLast : Shape → List LocatedTerm → Bool
  | .each parameters, arguments => lastWrong parameters arguments
  | _, _ => false

end Shape

end Tagged

namespace LocatedTerm

/-- Whether a list is as the form of its tag has it. A list without a tag, or with one that is
unknown, is not. -/
def wellFormed (list : LocatedTerm) : Bool :=
  list.form?.any fun form => form.shape.admits list.arguments

/-- Whether a list has a tag that relies on the last argument, and this argument alone is wrong. -/
def lacksLast (list : LocatedTerm) : Bool :=
  list.tag?.any relyingTags.contains && list.form?.any fun form => form.shape.lacksLast list.arguments

mutual

/-- All lists of a term, inner lists before those around them and from left to right. -/
def lists : LocatedTerm → List LocatedTerm
  | .symbol _ _ => []
  | .array _ elements => listsAll elements
  | .list span elements => listsAll elements ++ [.list span elements]

def listsAll : List LocatedTerm → List LocatedTerm
  | [] => []
  | term :: rest => lists term ++ listsAll rest

end

def firstIllFormed? (term : LocatedTerm) : Option LocatedTerm :=
  term.lists.find? fun list => !list.wellFormed

end LocatedTerm

end Analog
