import Analog.Tagged.Node

/-!
# Variables

Which variables occur in a program, and in which role: scalar variables and vectors that
still need a value, those that have one, and variables that stand for recorded values.
Each list is in order of first use.
-/

set_option autoImplicit false

namespace Analog

structure Variables where
  /-- Scalar variables without a value. -/
  scalars : List String := []
  /-- Run-time vectors without values. -/
  vectors : List String := []
  /-- Variables and vectors that have been given their values. -/
  assigned : List String := []
  /-- Variables that stand for recorded values. -/
  recorded : List String := []

namespace Variables

instance : Append Variables where
  append first second :=
    ⟨first.scalars ++ second.scalars, first.vectors ++ second.vectors,
      first.assigned ++ second.assigned, first.recorded ++ second.recorded⟩

def join (parts : List Variables) : Variables :=
  parts.foldr (· ++ ·) {}

/-- Names without repetition, in order of first occurrence. -/
def distinctNames (names : List String) : List String :=
  names.foldl (fun seen name => if seen.contains name then seen else seen ++ [name]) []

def distinct (used : Variables) : Variables :=
  ⟨distinctNames used.scalars, distinctNames used.vectors,
    distinctNames used.assigned, distinctNames used.recorded⟩

def free (used : Variables) : List String :=
  used.scalars.filter fun name => !used.recorded.contains name

def check (used : Variables) : Outcome Unit :=
  if used.free.isEmpty && used.vectors.isEmpty then .ok ()
  else .error (.unbound used.free used.vectors)

end Variables

namespace Scalar

mutual

def uses : Scalar → Variables
  | .literal _ => {}
  | .variable name => { scalars := [name] }
  | .assigned name _ => { assigned := [name] }
  | .negative operand => uses operand
  | .add left right => uses left ++ uses right
  | .mul left right => uses left ++ uses right
  | .div left right => uses left ++ uses right
  | .min operands => usesAll operands
  | .max operands => usesAll operands
  | .slice extent start stop => uses extent ++ usesBound start ++ usesBound stop

def usesAll : List Scalar → Variables
  | [] => {}
  | operand :: rest => uses operand ++ usesAll rest

def usesBound : Option Scalar → Variables
  | none => {}
  | some bound => uses bound

end

end Scalar

def Interval.uses (interval : Interval) : Variables :=
  Scalar.usesBound interval.start ++ Scalar.usesBound interval.stop

namespace Waveform

def introduced : Waveform → Variables
  | .record name _ _ => { recorded := [name] }
  | _ => {}

def uses (waveform : Waveform) : Variables :=
  .join (waveform.nodes.map fun node => node.introduced ++ Scalar.usesAll node.scalars)

end Waveform

def Modulation.uses : Modulation → Variables
  | .uniform => {}
  | .vector name => { vectors := [name] }
  | .assignedVector name _ => { assigned := [name] }
  | .scaled locations => Scalar.usesAll (locations.map (·.weight))

def Field.uses (field : Field) : Variables :=
  .join (field.drives.map fun drive => drive.target.uses ++ drive.waveform.uses)

namespace Pulse

mutual

/-- Occurrences in a pulse; the bounds of a slice come before what it cuts. -/
def uses : Pulse → Variables
  | .plain fields => .join (fields.entries.map (·.2.uses))
  | .append parts => usesAll parts
  | .slice inner interval => interval.uses ++ uses inner
  | .named _ inner => uses inner

def usesAll : List Pulse → Variables
  | [] => {}
  | part :: rest => uses part ++ usesAll rest

end

end Pulse

namespace Sequence

mutual

/-- Occurrences in a sequence; the bounds of a slice come before what it cuts. -/
def uses : Sequence → Variables
  | .plain pulses => .join (pulses.entries.map (·.2.uses))
  | .append parts => usesAll parts
  | .slice inner interval => interval.uses ++ uses inner
  | .named _ inner => uses inner

def usesAll : List Sequence → Variables
  | [] => {}
  | part :: rest => uses part ++ usesAll rest

end

end Sequence

/-- The variables of a node, each once in every role. Modulations, registers and series by
themselves are not looked through. -/
def Node.distinctUses (node : Node) : Outcome Variables :=
  match node with
  | .scalar value => .ok value.uses.distinct
  | .waveform value => .ok value.uses.distinct
  | .field value => .ok value.uses.distinct
  | .pulse value => .ok value.uses.distinct
  | .sequence value => .ok value.uses.distinct
  | .circuit value => .ok value.sequence.uses.distinct
  | .modulation _ => .error (.abort (.demanded ("cannot scan " ++ node.variantName)))
  | .register _ => .error (.abort (.demanded ("cannot scan " ++ node.variantName)))
  | .series _ => .error (.abort (.demanded ("cannot scan " ++ node.variantName)))

end Analog
