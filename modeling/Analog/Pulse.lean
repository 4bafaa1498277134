import Analog.Field

/-!
# Pulses

A plain pulse has at most one field of every name. Pulses can follow each other, be cut
and carry a label.
-/

set_option autoImplicit false

namespace Analog

/-- At most one value for every field name. -/
structure PerField (α : Type) where
  detuning : Option α := none
  rabiAmplitude : Option α := none
  rabiPhase : Option α := none

namespace PerField

variable {α β : Type}

def empty : PerField α := ⟨none, none, none⟩

def get? (table : PerField α) : FieldName → Option α
  | .detuning => table.detuning
  | .rabiAmplitude => table.rabiAmplitude
  | .rabiPhase => table.rabiPhase

def insert (table : PerField α) (name : FieldName) (value : α) : PerField α :=
  match name with
  | .detuning => { table with detuning := some value }
  | .rabiAmplitude => { table with rabiAmplitude := some value }
  | .rabiPhase => { table with rabiPhase := some value }

def entries (table : PerField α) : List (FieldName × α) :=
  FieldName.all.filterMap fun name => (table.get? name).map (name, ·)

def names (table : PerField α) : List FieldName :=
  table.entries.map Prod.fst

def map (f : α → β) (table : PerField α) : PerField β :=
  ⟨table.detuning.map f, table.rabiAmplitude.map f, table.rabiPhase.map f⟩

def ofEntries (entries : List (FieldName × α)) : PerField α :=
  entries.foldl (fun table entry => table.insert entry.1 entry.2) empty

def mapM {m : Type → Type} [Monad m] (f : α → m β) (table : PerField α) : m (PerField β) := do
  let entries ← table.entries.mapM fun entry => do
    let value ← f entry.2
    return (entry.1, value)
  return ofEntries entries

end PerField

inductive Pulse where
  | plain (fields : PerField Field)
  | append (parts : List Pulse)
  | slice (inner : Pulse) (interval : Interval)
  | named (name : String) (inner : Pulse)

namespace Pulse

instance : Inhabited Pulse := ⟨.plain .empty⟩

def plainDuration (fields : PerField Field) : Scalar :=
  longest (fields.entries.map (·.2.symbolicDuration))

mutual

def symbolicDuration : Pulse → Scalar
  | .plain fields => plainDuration fields
  | .append parts => Waveform.sumOfDurations (symbolicDurations parts)
  | .slice inner interval => .slice (symbolicDuration inner) interval.start interval.stop
  | .named _ inner => symbolicDuration inner

def symbolicDurations : List Pulse → List Scalar
  | [] => []
  | part :: rest => symbolicDuration part :: symbolicDurations rest

end

/-- Whether two optional values are both missing, or both there and related. -/
def sameOption {α : Type} (same : α → α → Bool) : Option α → Option α → Bool
  | none, none => true
  | some left, some right => same left right
  | _, _ => false

def sameFields (left right : PerField Field) : Bool :=
  FieldName.all.all fun name => sameOption Field.same (left.get? name) (right.get? name)

mutual

def same : Pulse → Pulse → Bool
  | .plain left, .plain right => sameFields left right
  | .append lefts, .append rights => sameAll lefts rights
  | .slice left leftInterval, .slice right rightInterval =>
    leftInterval.same rightInterval && same left right
  | .named leftName left, .named rightName right => leftName == rightName && same left right
  | _, _ => false

def sameAll : List Pulse → List Pulse → Bool
  | [], [] => true
  | left :: lefts, right :: rights => same left right && sameAll lefts rights
  | _, _ => false

end

open Fingerprint in
mutual

def fingerprint : Pulse → UInt64
  | .plain fields =>
    mixAll (seed "pulse") (fields.entries.flatMap fun entry =>
      [entry.1.code, entry.2.fingerprint])
  | .append parts => mixAll (seed "append_pulse") (fingerprints parts)
  | .slice inner interval =>
    mixAll (seed "slice_pulse") [fingerprint inner, interval.fingerprint]
  | .named name inner => mixAll (seed "named_pulse") [ofText name, fingerprint inner]

def fingerprints : List Pulse → List UInt64
  | [] => []
  | part :: rest => fingerprint part :: fingerprints rest

end

mutual

def toTerm : Pulse → Term
  | .plain fields =>
    .tagged "pulse" (fields.entries.map fun entry => .tagged entry.1.name [entry.2.toTerm])
  | .append parts => .tagged "append_pulse" (toTerms parts)
  | .slice inner interval =>
    .tagged "slice_pulse"
      [toTerm inner, Scalar.boundTerm interval.start, Scalar.boundTerm interval.stop]
  | .named name inner => .tagged "named_pulse" [.symbol name, toTerm inner]

def toTerms : List Pulse → List Term
  | [] => []
  | part :: rest => toTerm part :: toTerms rest

end

def text (pulse : Pulse) : String := pulse.toTerm.render false

def field? (pulse : Pulse) (name : FieldName) : Option Field :=
  match pulse with
  | .plain fields => fields.get? name
  | _ => none

mutual

def plains : Pulse → List (PerField Field)
  | .plain fields => [fields]
  | .append parts => plainsAll parts
  | .slice inner _ => plains inner
  | .named _ inner => plains inner

def plainsAll : List Pulse → List (PerField Field)
  | [] => []
  | part :: rest => plains part ++ plainsAll rest

end

end Pulse

end Analog
