import Analog.Proofs.FixedMeaning
import Analog.Waveform.Builtin

/-!
# Closed programs

A circuit that was given all of its recorded values, and that passes the check for values
from outside, has nothing left that waits for one: no variable, no run-time vector and no
record, in whatever layer. Three passes have to agree on this. The one that collects records
looks through waveforms only, assignment rebuilds every layer and dissolves the records whose
names are bound, and the check forgives names that some record provides.
-/

set_option autoImplicit false

namespace Analog

open Outcome Variables

namespace Scalar

def contents (scalar : Scalar) : List Node :=
  scalar.nodes.map .scalar

end Scalar

def Interval.contents (interval : Interval) : List Node :=
  interval.bounds.flatMap Scalar.contents

def Waveform.contents (waveform : Waveform) : List Node :=
  waveform.nodes.flatMap fun node => .waveform node :: node.scalars.flatMap Scalar.contents

def Modulation.weights : Modulation → List Scalar
  | .scaled locations => locations.map (·.weight)
  | _ => []

def Modulation.contents (modulation : Modulation) : List Node :=
  .modulation modulation :: modulation.weights.flatMap Scalar.contents

def Drive.contents (drive : Drive) : List Node :=
  drive.target.contents ++ drive.waveform.contents

def Field.contents (field : Field) : List Node :=
  .field field :: field.drives.flatMap Drive.contents

namespace Pulse

mutual

def contents : Pulse → List Node
  | .plain fields => .pulse (.plain fields) :: fields.entries.flatMap (·.2.contents)
  | .append parts => .pulse (.append parts) :: contentsAll parts
  | .slice inner interval =>
    .pulse (.slice inner interval) :: (interval.contents ++ contents inner)
  | .named name inner => .pulse (.named name inner) :: contents inner

def contentsAll : List Pulse → List Node
  | [] => []
  | part :: rest => contents part ++ contentsAll rest

end

end Pulse

namespace Sequence

mutual

def contents : Sequence → List Node
  | .plain pulses => .sequence (.plain pulses) :: pulses.entries.flatMap (·.2.contents)
  | .append parts => .sequence (.append parts) :: contentsAll parts
  | .slice inner interval =>
    .sequence (.slice inner interval) :: (interval.contents ++ contents inner)
  | .named name inner => .sequence (.named name inner) :: contents inner

def contentsAll : List Sequence → List Node
  | [] => []
  | part :: rest => contents part ++ contentsAll rest

end

end Sequence

namespace Node

/-- Nodes that wait for a value: variables, run-time vectors and records. -/
def pending : Node → Bool
  | .scalar (.variable _) => true
  | .modulation (.vector _) => true
  | .waveform (.record _ _ _) => true
  | _ => false

/-- Nodes that do not wait for a value, scalars with all their operands. -/
def Settled : Node → Prop
  | .scalar value => value.Fixed
  | .modulation value => value.uses.vectors = []
  | .waveform value => value.introduced.recorded = []
  | _ => True

theorem Settled.not_pending {node : Node} (settled : node.Settled) : node.pending = false := by
  unfold pending
  split
  case h_1 name => exact absurd settled (Scalar.not_fixed_variable name)
  case h_2 name => exact absurd settled (by simp [Settled, Modulation.uses])
  case h_3 name inner side => exact absurd settled (by simp [Settled, Waveform.introduced])
  case h_4 => rfl

end Node

namespace Scalar

theorem mem_nodes_all (operands : List Scalar) (node : Scalar) :
    node ∈ nodesAll operands ↔ ∃ operand ∈ operands, node ∈ operand.nodes := by
  induction operands with
  | nil => simp [nodesAll]
  | cons operand rest ih => simp [nodesAll, ih]

theorem mem_nodes_bound (bound : Option Scalar) (node : Scalar) :
    node ∈ nodesBound bound ↔ ∃ given ∈ bound, node ∈ given.nodes := by
  cases bound <;> simp [nodesBound]

theorem Fixed.pair_nodes {whole left right : Scalar} (fixed : whole.Fixed)
    (leftNodes : ∀ node ∈ left.nodes, node.Fixed) (rightNodes : ∀ node ∈ right.nodes, node.Fixed) :
    ∀ node ∈ whole :: (left.nodes ++ right.nodes), node.Fixed :=
  List.forall_mem_cons.2 ⟨fixed, List.forall_mem_append.2 ⟨leftNodes, rightNodes⟩⟩

theorem Fixed.choice_nodes {whole : Scalar} {operands : List Scalar} (fixed : whole.Fixed)
    (each : ∀ operand ∈ operands, ∀ node ∈ operand.nodes, node.Fixed) :
    ∀ node ∈ whole :: nodesAll operands, node.Fixed := by
  refine List.forall_mem_cons.2 ⟨fixed, fun node member => ?_⟩
  obtain ⟨operand, operandMember, inside⟩ := (mem_nodes_all operands node).1 member
  exact each operand operandMember node inside

theorem Fixed.each_node (scalar : Scalar) (fixed : scalar.Fixed) :
    ∀ node ∈ scalar.nodes, node.Fixed := by
  induction scalar using Scalar.parts_induction with
  | literal value => exact List.forall_mem_singleton.2 fixed
  | named name => exact List.forall_mem_singleton.2 fixed
  | assigned name value => exact List.forall_mem_singleton.2 fixed
  | negative operand ih =>
      exact List.forall_mem_cons.2 ⟨fixed, ih ((fixed_negative_iff operand).1 fixed)⟩
  | add left right leftIh rightIh =>
      obtain ⟨leftFixed, rightFixed⟩ := (fixed_add_iff left right).1 fixed
      exact fixed.pair_nodes (leftIh leftFixed) (rightIh rightFixed)
  | mul left right leftIh rightIh =>
      obtain ⟨leftFixed, rightFixed⟩ := (fixed_mul_iff left right).1 fixed
      exact fixed.pair_nodes (leftIh leftFixed) (rightIh rightFixed)
  | div left right leftIh rightIh =>
      obtain ⟨leftFixed, rightFixed⟩ := (fixed_div_iff left right).1 fixed
      exact fixed.pair_nodes (leftIh leftFixed) (rightIh rightFixed)
  | min operands ih =>
      have each := ((fixed_min_iff operands).1 fixed).2
      exact fixed.choice_nodes fun operand member => ih operand member (each operand member)
  | max operands ih =>
      have each := ((fixed_max_iff operands).1 fixed).2
      exact fixed.choice_nodes fun operand member => ih operand member (each operand member)
  | slice extent start stop extentIh startIh stopIh =>
      obtain ⟨extentFixed, startFixed, stopFixed⟩ := (fixed_slice_iff extent start stop).1 fixed
      refine List.forall_mem_cons.2 ⟨fixed, List.forall_mem_append.2
        ⟨List.forall_mem_append.2 ⟨extentIh extentFixed, ?_⟩, ?_⟩⟩
      · intro node member
        obtain ⟨bound, given, inside⟩ := (mem_nodes_bound start node).1 member
        exact startIh bound given (startFixed bound given) node inside
      · intro node member
        obtain ⟨bound, given, inside⟩ := (mem_nodes_bound stop node).1 member
        exact stopIh bound given (stopFixed bound given) node inside

theorem Fixed.contents_settled {scalar : Scalar} (fixed : scalar.Fixed) :
    ∀ node ∈ scalar.contents, node.Settled :=
  List.forall_mem_map.2 (fixed.each_node scalar)

end Scalar

theorem Interval.Fixed.contents_settled {interval : Interval} (fixed : interval.Fixed) :
    ∀ node ∈ interval.contents, node.Settled :=
  List.forall_mem_flatMap.2 fun bound member => (fixed bound member).contents_settled

/-- A drive without records and variables has settled contents. -/
theorem Drive.Resolved.contents_settled {drive : Drive} (resolved : drive.Resolved)
    (closed : drive.uses.scalars = []) (plain : drive.uses.vectors = []) :
    ∀ node ∈ drive.contents, node.Settled := by
  have fixed := resolved.fixed closed
  refine List.forall_mem_append.2 ⟨List.forall_mem_cons.2 ⟨?_, ?_⟩, ?_⟩
  · exact ((vectors_splits.append _ _).1 plain).1
  · have weightsFixed := fixed.target
    refine List.forall_mem_flatMap.2 fun weight member => ?_
    cases found : drive.target with
    | scaled locations =>
        rw [found] at member weightsFixed
        obtain ⟨location, locationMember, rfl⟩ := List.mem_map.1 member
        exact (weightsFixed location locationMember).contents_settled
    | _ =>
        rw [found] at member
        cases member
  · refine List.forall_mem_flatMap.2 fun node member => List.forall_mem_cons.2
      ⟨(resolved.waveform node member).1, List.forall_mem_flatMap.2 fun scalar inside => ?_⟩
    exact (fixed.waveform node member scalar inside).contents_settled

namespace Pulse

theorem mem_contents_all (parts : List Pulse) (node : Node) :
    node ∈ contentsAll parts ↔ ∃ part ∈ parts, node ∈ part.contents := by
  induction parts with
  | nil => simp [contentsAll]
  | cons part rest ih => simp [contentsAll, ih]

theorem Each.contents_settled (pulse : Pulse)
    (each : pulse.Each
      (PerField.EachDrive fun drive => ∀ node ∈ drive.contents, node.Settled) Interval.Fixed) :
    ∀ node ∈ pulse.contents, node.Settled := by
  induction pulse using Pulse.parts_induction with
  | plain fields =>
      refine List.forall_mem_cons.2 ⟨trivial, List.forall_mem_flatMap.2 ?_⟩
      rintro ⟨name, field⟩ found
      have fieldFound := (fields.mem_entries_iff name field).1 found
      exact List.forall_mem_cons.2
        ⟨trivial, List.forall_mem_flatMap.2 (each name field fieldFound)⟩
  | append parts ih =>
      rw [each_append_iff] at each
      refine List.forall_mem_cons.2 ⟨trivial, fun node member => ?_⟩
      obtain ⟨part, partMember, inside⟩ := (mem_contents_all parts node).1 member
      exact ih part partMember (each part partMember) node inside
  | slice inner interval ih =>
      exact List.forall_mem_cons.2
        ⟨trivial, List.forall_mem_append.2 ⟨each.2.contents_settled, ih each.1⟩⟩
  | named name inner ih => exact List.forall_mem_cons.2 ⟨trivial, ih each⟩

theorem Resolved.contents_settled (pulse : Pulse) (resolved : pulse.Resolved)
    (closed : pulse.uses.scalars = []) (plain : pulse.uses.vectors = []) :
    ∀ node ∈ pulse.contents, node.Settled := by
  rw [uses_iff scalars_splits] at closed
  rw [uses_iff vectors_splits] at plain
  apply Each.contents_settled
  refine (Each.and pulse resolved (Each.and pulse closed plain)).mono pulse ?_ ?_
  · rintro fields ⟨fieldsResolved, fieldsClosed, fieldsPlain⟩ name field found drive member
    exact (fieldsResolved name field found drive member).contents_settled
      (fieldsClosed name field found drive member) (fieldsPlain name field found drive member)
  · rintro interval ⟨tidied, intervalClosed, _⟩ bound member
    exact ⟨tidied bound member, (interval.uses_iff scalars_splits).1 intervalClosed bound member⟩

end Pulse

namespace Sequence

theorem mem_contents_all (parts : List Sequence) (node : Node) :
    node ∈ contentsAll parts ↔ ∃ part ∈ parts, node ∈ part.contents := by
  induction parts with
  | nil => simp [contentsAll]
  | cons part rest ih => simp [contentsAll, ih]

theorem Each.contents_settled (sequence : Sequence)
    (each : sequence.Each
      (PerCoupling.EachPulse fun pulse => ∀ node ∈ pulse.contents, node.Settled)
      Interval.Fixed) :
    ∀ node ∈ sequence.contents, node.Settled := by
  induction sequence using Sequence.parts_induction with
  | plain pulses =>
      refine List.forall_mem_cons.2 ⟨trivial, List.forall_mem_flatMap.2 ?_⟩
      rintro ⟨coupling, pulse⟩ found
      exact each coupling pulse ((pulses.mem_entries_iff coupling pulse).1 found)
  | append parts ih =>
      rw [each_append_iff] at each
      refine List.forall_mem_cons.2 ⟨trivial, fun node member => ?_⟩
      obtain ⟨part, partMember, inside⟩ := (mem_contents_all parts node).1 member
      exact ih part partMember (each part partMember) node inside
  | slice inner interval ih =>
      exact List.forall_mem_cons.2
        ⟨trivial, List.forall_mem_append.2 ⟨each.2.contents_settled, ih each.1⟩⟩
  | named name inner ih => exact List.forall_mem_cons.2 ⟨trivial, ih each⟩

theorem Resolved.contents_settled (sequence : Sequence) (resolved : sequence.Resolved)
    (closed : sequence.uses.scalars = []) (plain : sequence.uses.vectors = []) :
    ∀ node ∈ sequence.contents, node.Settled := by
  rw [uses_iff scalars_splits] at closed
  rw [uses_iff vectors_splits] at plain
  apply Each.contents_settled
  refine (Each.and sequence resolved (Each.and sequence closed plain)).mono sequence ?_ ?_
  · rintro pulses ⟨pulsesResolved, pulsesClosed, pulsesPlain⟩ coupling pulse found
    exact (pulsesResolved coupling pulse found).contents_settled pulse
      (pulsesClosed coupling pulse found) (pulsesPlain coupling pulse found)
  · rintro interval ⟨tidied, intervalClosed, _⟩ bound member
    exact ⟨tidied bound member, (interval.uses_iff scalars_splits).1 intervalClosed bound member⟩

end Sequence

def Canonical.padded [Natives] (bindings : ScalarBindings) (given : Sequence) : Outcome Sequence := do
  let canonical ← Canonical.afresh (Canonical.sequence given)
  canonical.pad bindings

theorem Canonical.padded_eq [Natives] (first second : ScalarBindings) {given : Sequence}
    (fixed : given.Fixed) : padded first given = padded second given := by
  refine bind_congr fun canonical succeeds => ?_
  have refines := (@Canonical.sequence_keeps first given fixed).afresh
    Canonical.remembers_nothing succeeds
  exact refines.fixed.pad_eq first second

/-- A circuit that was assigned its recorded values and passes the check does not depend on
bindings any more. -/
theorem bound_circuit_closed [Natives] {circuit assigned : Circuit} {given bound : Bindings}
    (scanned : circuit.sequence.recordedBindings given = .ok bound)
    (succeeds : circuit.assign bound = .ok assigned)
    (checked : assigned.sequence.uses.distinct.check = .ok ()) :
    (∀ node ∈ assigned.sequence.contents, node.pending = false) ∧
      ∀ first second : ScalarBindings,
        (∀ scalar, .scalar scalar ∈ assigned.sequence.contents →
          scalar.eval first = scalar.eval second ∧ Without .unbound (scalar.eval first)) ∧
        Canonical.padded first assigned.sequence = Canonical.padded second assigned.sequence := by
  have resolved := Circuit.assign_resolved scanned succeeds
  have closed := scalars_of_check resolved.recorded checked
  have settled := resolved.contents_settled assigned.sequence closed (vectors_of_check checked)
  refine ⟨fun node member => (settled node member).not_pending, fun first second => ⟨?_, ?_⟩⟩
  · intro scalar member
    have fixed : scalar.Fixed := settled (.scalar scalar) member
    exact ⟨fixed.eval_eq first second, fixed.eval_bound⟩
  · exact Canonical.padded_eq first second (resolved.fixed assigned.sequence closed)

/-- A slice of a pulse that records the end of its ramp, on weighted sites and on a vector. -/
def recordedSlice : Circuit where
  layout := .plain (.chain 2 5)
  sequence := .slice (.plain { rydberg := some (.slice (.plain { detuning := some ⟨[
    ⟨.scaled [⟨0, .variable "end"⟩],
      .append [.record "end" (.ramp (.literal 0) (.literal 2) (.variable "rise")) .right,
        .aligned (.constant (.variable "end") (.literal 1)) .left (.explicit (.variable "end"))]⟩,
    ⟨.vector "v", .constant (.literal 1) (.variable "rise")⟩]⟩ })
    ⟨none, some (.variable "stop")⟩) }) ⟨some (.variable "start"), none⟩

def settledSlice : Circuit where
  layout := .plain (.chain 2 5)
  sequence := .slice (.plain { rydberg := some (.slice (.plain { detuning := some ⟨[
    ⟨.scaled [⟨0, .assigned "end" 2⟩],
      .append [.ramp (.literal 0) (.literal 2) (.assigned "rise" 3),
        .aligned (.constant (.assigned "end" 2) (.literal 1)) .left
          (.explicit (.assigned "end" 2))]⟩,
    ⟨.assignedVector "v" [1, 0], .constant (.literal 1) (.assigned "rise" 3)⟩]⟩ })
    ⟨none, some (.assigned "stop" 2)⟩) }) ⟨some (.assigned "start" 1), none⟩

theorem bound_circuit_closed_slice :
    ∃ bound, recordedSlice.sequence.recordedBindings
        ⟨.ofList [("rise", 3), ("start", 1), ("stop", 2)], .ofList [("v", [1, 0])]⟩ = .ok bound ∧
      recordedSlice.assign bound = .ok settledSlice ∧
      settledSlice.sequence.uses.distinct.check = .ok () ∧
      (∀ node ∈ settledSlice.sequence.contents, node.pending = false) ∧
      ∀ bindings, Canonical.padded bindings settledSlice.sequence =
        Canonical.padded .empty settledSlice.sequence := by
  have scanned : recordedSlice.sequence.recordedBindings
      ⟨.ofList [("rise", 3), ("start", 1), ("stop", 2)], .ofList [("v", [1, 0])]⟩ =
        .ok ⟨.ofList [("end", 2), ("rise", 3), ("start", 1), ("stop", 2)],
          .ofList [("v", [1, 0])]⟩ := rfl
  refine ⟨_, scanned, rfl, rfl, ?_⟩
  obtain ⟨settled, independent⟩ := bound_circuit_closed scanned rfl rfl
  exact ⟨settled, fun bindings => (independent bindings .empty).2⟩

end Analog
