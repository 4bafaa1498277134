import Analog.Pulse

/-!
# Sequences

A plain sequence has at most one pulse for every level coupling. Sequences can follow
each other, be cut and carry a label.
-/

set_option autoImplicit false

namespace Analog

/-- A transition between two levels of an atom. -/
inductive Coupling where
  | rydberg
  | hyperfine
  deriving DecidableEq, Inhabited

namespace Coupling

def all : List Coupling := [rydberg, hyperfine]

def name : Coupling → String
  | rydberg => "rydberg"
  | hyperfine => "hyperfine"

def ofName? (text : String) : Option Coupling :=
  all.find? (·.name == text)

def code : Coupling → UInt64
  | rydberg => 0
  | hyperfine => 1

end Coupling

/-- At most one value for every coupling. -/
structure PerCoupling (α : Type) where
  rydberg : Option α := none
  hyperfine : Option α := none

namespace PerCoupling

variable {α β : Type}

def empty : PerCoupling α := ⟨none, none⟩

def get? (table : PerCoupling α) : Coupling → Option α
  | .rydberg => table.rydberg
  | .hyperfine => table.hyperfine

def insert (table : PerCoupling α) (coupling : Coupling) (value : α) : PerCoupling α :=
  match coupling with
  | .rydberg => { table with rydberg := some value }
  | .hyperfine => { table with hyperfine := some value }

def entries (table : PerCoupling α) : List (Coupling × α) :=
  Coupling.all.filterMap fun coupling => (table.get? coupling).map (coupling, ·)

def map (f : α → β) (table : PerCoupling α) : PerCoupling β :=
  ⟨table.rydberg.map f, table.hyperfine.map f⟩

def ofEntries (entries : List (Coupling × α)) : PerCoupling α :=
  entries.foldl (fun table entry => table.insert entry.1 entry.2) empty

/-- Applies a function that can fail, in order of couplings. -/
def mapM {m : Type → Type} [Monad m] (f : α → m β) (table : PerCoupling α) :
    m (PerCoupling β) := do
  let entries ← table.entries.mapM fun entry => do
    let value ← f entry.2
    return (entry.1, value)
  return ofEntries entries

end PerCoupling

inductive Sequence where
  | plain (pulses : PerCoupling Pulse)
  | append (parts : List Sequence)
  | slice (inner : Sequence) (interval : Interval)
  | named (name : String) (inner : Sequence)

namespace Sequence

instance : Inhabited Sequence := ⟨.plain .empty⟩

/-- The symbolic duration of the pulses of a plain sequence. -/
def plainDuration (pulses : PerCoupling Pulse) : Scalar :=
  longest (pulses.entries.map (·.2.symbolicDuration))

mutual

def symbolicDuration : Sequence → Scalar
  | .plain pulses => plainDuration pulses
  | .append parts => Waveform.sumOfDurations (symbolicDurations parts)
  | .slice inner interval => .slice (symbolicDuration inner) interval.start interval.stop
  | .named _ inner => symbolicDuration inner

def symbolicDurations : List Sequence → List Scalar
  | [] => []
  | part :: rest => symbolicDuration part :: symbolicDurations rest

end

def samePulses (left right : PerCoupling Pulse) : Bool :=
  Coupling.all.all fun coupling =>
    Pulse.sameOption Pulse.same (left.get? coupling) (right.get? coupling)

mutual

def same : Sequence → Sequence → Bool
  | .plain left, .plain right => samePulses left right
  | .append lefts, .append rights => sameAll lefts rights
  | .slice left leftInterval, .slice right rightInterval =>
    leftInterval.same rightInterval && same left right
  | .named leftName left, .named rightName right => leftName == rightName && same left right
  | _, _ => false

def sameAll : List Sequence → List Sequence → Bool
  | [], [] => true
  | left :: lefts, right :: rights => same left right && sameAll lefts rights
  | _, _ => false

end

open Fingerprint in
mutual

def fingerprint : Sequence → UInt64
  | .plain pulses =>
    mixAll (seed "sequence") (pulses.entries.flatMap fun entry =>
      [entry.1.code, entry.2.fingerprint])
  | .append parts => mixAll (seed "append_sequence") (fingerprints parts)
  | .slice inner interval =>
    mixAll (seed "slice_sequence") [fingerprint inner, interval.fingerprint]
  | .named name inner => mixAll (seed "named_sequence") [ofText name, fingerprint inner]

def fingerprints : List Sequence → List UInt64
  | [] => []
  | part :: rest => fingerprint part :: fingerprints rest

end

mutual

def toTerm : Sequence → Term
  | .plain pulses =>
    .tagged "sequence" (pulses.entries.map fun entry => .tagged entry.1.name [entry.2.toTerm])
  | .append parts => .tagged "append_sequence" (toTerms parts)
  | .slice inner interval =>
    .tagged "slice_sequence"
      [toTerm inner, Scalar.boundTerm interval.start, Scalar.boundTerm interval.stop]
  | .named name inner => .tagged "named_sequence" [.symbol name, toTerm inner]

def toTerms : List Sequence → List Term
  | [] => []
  | part :: rest => toTerm part :: toTerms rest

end

def text (sequence : Sequence) : String := sequence.toTerm.render false

def pulse? (sequence : Sequence) (coupling : Coupling) : Option Pulse :=
  match sequence with
  | .plain pulses => pulses.get? coupling
  | _ => none

mutual

def plains : Sequence → List (PerCoupling Pulse)
  | .plain pulses => [pulses]
  | .append parts => plainsAll parts
  | .slice inner _ => plains inner
  | .named _ inner => plains inner

def plainsAll : List Sequence → List (PerCoupling Pulse)
  | [] => []
  | part :: rest => plains part ++ plainsAll rest

end

end Sequence

end Analog
