import Analog.Assignment
import Analog.Proofs.SequenceParts
import Analog.Proofs.WaveformNodes

/-!
# Substitution

Substitution gives values to all variables and vectors that have a binding, and cannot fail.
Assignment is substitution with a guard: it succeeds, with the substituted node, exactly if
no name that has a value in the node already is bound again, and it reports a conflict of
names otherwise. Both rebuild nodes with the constructors that drop repeated operands, put
locations in order and sum the drives of one modulation.
-/

set_option autoImplicit false

namespace Analog

def Bindings.rebinds (bindings : Bindings) : String × BoundValue → Bool
  | (name, .scalar _) => bindings.scalars.contains name
  | (name, .vector _) => bindings.vectors.contains name

def Bindings.Spares (bindings : Bindings) (given : List (String × BoundValue)) : Prop :=
  ∀ entry ∈ given, bindings.rebinds entry = false

namespace Bindings

variable {bindings : Bindings}

@[simp] theorem spares_nil : bindings.Spares [] := by simp [Spares]

@[simp] theorem spares_append_iff (before after : List (String × BoundValue)) :
    bindings.Spares (before ++ after) ↔ bindings.Spares before ∧ bindings.Spares after :=
  List.forall_mem_append

@[simp] theorem spares_flat_map_iff {α : Type} (items : List α)
    (given : α → List (String × BoundValue)) :
    bindings.Spares (items.flatMap given) ↔ ∀ item ∈ items, bindings.Spares (given item) := by
  simp only [Spares, List.mem_flatMap]
  grind

@[simp] theorem spares_scalar_iff (name : String) (value : Decimal) :
    bindings.Spares [(name, .scalar value)] ↔ bindings.scalars.find? name = none := by
  simp [Spares, rebinds, NameMap.contains]

@[simp] theorem spares_vector_iff (name : String) (values : List Decimal) :
    bindings.Spares [(name, .vector values)] ↔ bindings.vectors.find? name = none := by
  simp [Spares, rebinds, NameMap.contains]

end Bindings

def Scalar.assignments (scalar : Scalar) : List (String × BoundValue) :=
  scalar.occurrences.filterMap fun occurrence =>
    occurrence.value.map fun value => (occurrence.name, .scalar value)

def Interval.assignments (interval : Interval) : List (String × BoundValue) :=
  interval.bounds.flatMap Scalar.assignments

def Waveform.assignments (waveform : Waveform) : List (String × BoundValue) :=
  waveform.nodes.flatMap fun node => node.scalars.flatMap Scalar.assignments

def Modulation.assignments : Modulation → List (String × BoundValue)
  | .uniform => []
  | .vector _ => []
  | .assignedVector name values => [(name, .vector values)]
  | .scaled locations => locations.flatMap (·.weight.assignments)

def Drive.assignments (drive : Drive) : List (String × BoundValue) :=
  drive.target.assignments ++ drive.waveform.assignments

def Field.assignments (field : Field) : List (String × BoundValue) :=
  field.drives.flatMap Drive.assignments

namespace Pulse

mutual

def assignments : Pulse → List (String × BoundValue)
  | .plain fields => fields.entries.flatMap (·.2.assignments)
  | .append parts => assignmentsAll parts
  | .slice inner interval => assignments inner ++ interval.assignments
  | .named _ inner => assignments inner

def assignmentsAll : List Pulse → List (String × BoundValue)
  | [] => []
  | part :: rest => assignments part ++ assignmentsAll rest

end

end Pulse

namespace Sequence

mutual

def assignments : Sequence → List (String × BoundValue)
  | .plain pulses => pulses.entries.flatMap (·.2.assignments)
  | .append parts => assignmentsAll parts
  | .slice inner interval => assignments inner ++ interval.assignments
  | .named _ inner => assignments inner

def assignmentsAll : List Sequence → List (String × BoundValue)
  | [] => []
  | part :: rest => assignments part ++ assignmentsAll rest

end

end Sequence

def Node.assignments : Node → List (String × BoundValue)
  | scalar value => value.assignments
  | waveform value => value.assignments
  | modulation value => value.assignments
  | field value => value.assignments
  | pulse value => value.assignments
  | sequence value => value.assignments
  | circuit value => value.sequence.assignments
  | register _ => []
  | series _ => []

namespace Scalar

mutual

def substitute (bindings : ScalarBindings) : Scalar → Scalar
  | .literal value => .literal value
  | .variable name =>
    match bindings.find? name with
    | some value => .assigned name value
    | none => .variable name
  | .assigned name value => .assigned name value
  | .negative operand => .negative (substitute bindings operand)
  | .add left right => .add (substitute bindings left) (substitute bindings right)
  | .mul left right => .mul (substitute bindings left) (substitute bindings right)
  | .div left right => .div (substitute bindings left) (substitute bindings right)
  | .min operands => minimum (substituteAll bindings operands)
  | .max operands => maximum (substituteAll bindings operands)
  | .slice extent start stop =>
    .slice (substitute bindings extent) (substituteBound bindings start)
      (substituteBound bindings stop)

def substituteAll (bindings : ScalarBindings) : List Scalar → List Scalar
  | [] => []
  | operand :: rest => substitute bindings operand :: substituteAll bindings rest

def substituteBound (bindings : ScalarBindings) : Option Scalar → Option Scalar
  | none => none
  | some bound => some (substitute bindings bound)

end

end Scalar

def Interval.substitute (bindings : ScalarBindings) (interval : Interval) : Interval :=
  ⟨Scalar.substituteBound bindings interval.start, Scalar.substituteBound bindings interval.stop⟩

def FillValue.substitute (bindings : ScalarBindings) : FillValue → FillValue
  | .explicit value => .explicit (value.substitute bindings)
  | .boundary side => .boundary side

namespace Waveform

mutual

def substitute (bindings : ScalarBindings) : Waveform → Waveform
  | .constant value duration => .constant (value.substitute bindings) (duration.substitute bindings)
  | .ramp start stop duration =>
    .ramp (start.substitute bindings) (stop.substitute bindings) (duration.substitute bindings)
  | .poly coefficients duration =>
    .poly (Scalar.substituteAll bindings coefficients) (duration.substitute bindings)
  | .native name function duration parameters =>
    .native name function (duration.substitute bindings) (Scalar.substituteAll bindings parameters)
  | .negative inner => .negative (substitute bindings inner)
  | .add left right => .add (substitute bindings left) (substitute bindings right)
  | .scale factor inner => .scale (factor.substitute bindings) (substitute bindings inner)
  | .slice inner interval => .slice (substitute bindings inner) (interval.substitute bindings)
  | .append parts => .append (substituteAll bindings parts)
  | .record name inner side =>
    if bindings.contains name then substitute bindings inner
    else .record name (substitute bindings inner) side
  | .sample inner step interpolation =>
    .sample (substitute bindings inner) (step.substitute bindings) interpolation
  | .smooth inner radius kernel =>
    .smooth (substitute bindings inner) (radius.substitute bindings) kernel
  | .aligned inner alignment fill =>
    .aligned (substitute bindings inner) alignment (fill.substitute bindings)

def substituteAll (bindings : ScalarBindings) : List Waveform → List Waveform
  | [] => []
  | part :: rest => substitute bindings part :: substituteAll bindings rest

end

end Waveform

def Location.substitute (bindings : ScalarBindings) (location : Location) : Location :=
  ⟨location.site, location.weight.substitute bindings⟩

def Modulation.substitute (bindings : Bindings) : Modulation → Modulation
  | .uniform => .uniform
  | .vector name =>
    match bindings.vectors.find? name with
    | some values => .assignedVector name values
    | none => .vector name
  | .assignedVector name values => .assignedVector name values
  | .scaled locations => ofLocations (locations.map (Location.substitute bindings.scalars))

def Drive.substitute (bindings : Bindings) (drive : Drive) : Drive :=
  ⟨drive.target.substitute bindings, drive.waveform.substitute bindings.scalars⟩

def Field.substitute (bindings : Bindings) (field : Field) : Field :=
  ofDrives (field.drives.map (Drive.substitute bindings))

namespace Pulse

mutual

def substitute (bindings : Bindings) : Pulse → Pulse
  | .plain fields => .plain (fields.map (Field.substitute bindings))
  | .append parts => .append (substituteAll bindings parts)
  | .slice inner interval =>
    .slice (substitute bindings inner) (interval.substitute bindings.scalars)
  | .named name inner => .named name (substitute bindings inner)

def substituteAll (bindings : Bindings) : List Pulse → List Pulse
  | [] => []
  | part :: rest => substitute bindings part :: substituteAll bindings rest

end

end Pulse

namespace Sequence

mutual

def substitute (bindings : Bindings) : Sequence → Sequence
  | .plain pulses => .plain (pulses.map (Pulse.substitute bindings))
  | .append parts => .append (substituteAll bindings parts)
  | .slice inner interval =>
    .slice (substitute bindings inner) (interval.substitute bindings.scalars)
  | .named name inner => .named name (substitute bindings inner)

def substituteAll (bindings : Bindings) : List Sequence → List Sequence
  | [] => []
  | part :: rest => substitute bindings part :: substituteAll bindings rest

end

end Sequence

def Node.substitute (bindings : Bindings) : Node → Node
  | scalar value => scalar (value.substitute bindings.scalars)
  | waveform value => waveform (value.substitute bindings.scalars)
  | modulation value => modulation (value.substitute bindings)
  | field value => field (value.substitute bindings)
  | pulse value => pulse (value.substitute bindings)
  | sequence value => sequence (value.substitute bindings)
  | circuit value => circuit { value with sequence := value.sequence.substitute bindings }
  | register value => register value
  | series value => series value

namespace Outcome

variable {α β : Type}

/-- The failure of an assignment that gives a name a second value. -/
def Conflicts (outcome : Outcome α) : Prop :=
  ∃ name existing attempted, outcome = .error (.reassigned name existing attempted)

/-- Under its guard an outcome is the given result, and otherwise it is a conflict. -/
structure Guarded (guard : Prop) (outcome : Outcome α) (result : α) : Prop where
  succeeds : guard → outcome = .ok result
  conflicts : ¬guard → outcome.Conflicts

namespace Guarded

theorem done (result : α) : Guarded True (.ok result) result :=
  ⟨fun _ => rfl, fun impossible => absurd trivial impossible⟩

theorem of_iff {guard other : Prop} {outcome : Outcome α} {result : α}
    (guarded : Guarded guard outcome result) (same : other ↔ guard) :
    Guarded other outcome result :=
  ⟨fun holds => guarded.succeeds (same.1 holds),
    fun fails => guarded.conflicts fun holds => fails (same.2 holds)⟩

theorem bind {guard next : Prop} {outcome : Outcome α} {work : α → Outcome β} {result : α}
    {final : β} (first : Guarded guard outcome result)
    (second : Guarded next (work result) final) :
    Guarded (guard ∧ next) (outcome >>= work) final := by
  constructor
  · rintro ⟨guardHolds, nextHolds⟩
    rw [first.succeeds guardHolds]
    exact second.succeeds nextHolds
  · intro fails
    by_cases guardHolds : guard
    · rw [first.succeeds guardHolds]
      exact second.conflicts fun nextHolds => fails ⟨guardHolds, nextHolds⟩
    · obtain ⟨name, existing, attempted, failed⟩ := first.conflicts guardHolds
      exact ⟨name, existing, attempted, by rw [failed]; rfl⟩

theorem returns {guard : Prop} {outcome : Outcome α} {result : α}
    (guarded : Guarded guard outcome result) (f : α → β) :
    Guarded guard (outcome >>= fun value => pure (f value)) (f result) :=
  (guarded.bind (done (f result))).of_iff (and_iff_left trivial).symm

theorem map {guard : Prop} {outcome : Outcome α} {result : α}
    (guarded : Guarded guard outcome result) (f : α → β) :
    Guarded guard (f <$> outcome) (f result) := by
  constructor
  · intro holds
    rw [guarded.succeeds holds]
    rfl
  · intro fails
    obtain ⟨name, existing, attempted, failed⟩ := guarded.conflicts fails
    exact ⟨name, existing, attempted, by rw [failed]; rfl⟩

theorem mapM {guard : α → Prop} {work : α → Outcome β} {result : α → β} {items : List α}
    (each : ∀ item ∈ items, Guarded (guard item) (work item) (result item)) :
    Guarded (∀ item ∈ items, guard item) (items.mapM work) (items.map result) := by
  induction items with
  | nil => exact (done []).of_iff (by simp)
  | cons item rest ih =>
      rw [List.mapM_cons]
      refine ((each item (by simp)).bind ((ih fun other member =>
        each other (by simp [member])).returns _)).of_iff ?_
      exact List.forall_mem_cons

end Guarded

end Outcome

open Outcome

variable {bindings : Bindings}

namespace Scalar

theorem assign_all_eq_mapM (bindings : ScalarBindings) (operands : List Scalar) :
    assignAll bindings operands = operands.mapM (assign bindings) := by
  induction operands with
  | nil => rfl
  | cons operand rest ih => rw [assignAll, List.mapM_cons, ih]

theorem substitute_all_eq_map (bindings : ScalarBindings) (operands : List Scalar) :
    substituteAll bindings operands = operands.map (substitute bindings) := by
  induction operands with
  | nil => rfl
  | cons operand rest ih => rw [substituteAll, List.map_cons, ih]

theorem substitute_bound_eq_map (bindings : ScalarBindings) (bound : Option Scalar) :
    substituteBound bindings bound = bound.map (substitute bindings) := by
  cases bound <;> rfl

theorem occurrences_all_eq (operands : List Scalar) :
    occurrencesAll operands = operands.flatMap occurrences := by
  induction operands with
  | nil => rfl
  | cons operand rest ih => rw [occurrencesAll, List.flatMap_cons, ih]

theorem occurrences_bound_eq (bound : Option Scalar) :
    occurrencesBound bound = bound.toList.flatMap occurrences := by
  cases bound <;> simp [occurrencesBound]

theorem assignments_pair {whole left right : Scalar}
    (parts : whole.occurrences = left.occurrences ++ right.occurrences) :
    whole.assignments = left.assignments ++ right.assignments := by
  rw [assignments, parts, List.filterMap_append]
  rfl

theorem assignments_choice {whole : Scalar} {operands : List Scalar}
    (parts : whole.occurrences = occurrencesAll operands) :
    whole.assignments = operands.flatMap assignments := by
  rw [assignments, parts, occurrences_all_eq, List.filterMap_flatMap]
  rfl

theorem assignments_slice (extent : Scalar) (start stop : Option Scalar) :
    (slice extent start stop).assignments =
      extent.assignments ++ (start.toList.flatMap assignments ++ stop.toList.flatMap assignments) := by
  rw [assignments, occurrences, occurrences_bound_eq, occurrences_bound_eq, List.filterMap_append,
    List.filterMap_append, List.filterMap_flatMap, List.filterMap_flatMap, List.append_assoc]
  rfl

theorem assign_bound_guarded {bound : Option Scalar}
    (each : ∀ given ∈ bound, Guarded (bindings.Spares given.assignments)
      (given.assign bindings.scalars) (given.substitute bindings.scalars)) :
    Guarded (bindings.Spares (bound.toList.flatMap assignments))
      (assignBound bindings.scalars bound) (substituteBound bindings.scalars bound) := by
  cases bound with
  | none => exact (Guarded.done none).of_iff (by simp)
  | some given =>
      refine ((each given rfl).returns some).of_iff ?_
      simp

/-- A variable takes its binding, and one with a value refuses it. -/
theorem assign_guarded (bindings : Bindings) (scalar : Scalar) :
    Guarded (bindings.Spares scalar.assignments) (scalar.assign bindings.scalars)
      (scalar.substitute bindings.scalars) := by
  induction scalar using Scalar.parts_induction with
  | literal value => exact (Guarded.done _).of_iff (iff_true_intro Bindings.spares_nil)
  | named name =>
      refine Guarded.of_iff ?_ (iff_true_intro Bindings.spares_nil)
      rw [assign, substitute]
      cases bindings.scalars.find? name <;> exact .done _
  | assigned name value =>
      rw [assign, substitute]
      constructor
      · intro spared
        rw [(Bindings.spares_scalar_iff name value).1 spared]
      · intro rebound
        cases found : bindings.scalars.find? name with
        | none => exact absurd ((Bindings.spares_scalar_iff name value).2 found) rebound
        | some attempted => exact ⟨_, _, _, rfl⟩
  | negative operand ih => exact ih.returns negative
  | add left right leftIh rightIh =>
      rw [assignments_pair rfl]
      exact (leftIh.bind (rightIh.returns _)).of_iff (Bindings.spares_append_iff _ _)
  | mul left right leftIh rightIh =>
      rw [assignments_pair rfl]
      exact (leftIh.bind (rightIh.returns _)).of_iff (Bindings.spares_append_iff _ _)
  | div left right leftIh rightIh =>
      rw [assignments_pair rfl]
      exact (leftIh.bind (rightIh.returns _)).of_iff (Bindings.spares_append_iff _ _)
  | min operands ih =>
      rw [assignments_choice rfl, assign, assign_all_eq_mapM, substitute, substitute_all_eq_map]
      exact ((Guarded.mapM ih).returns minimum).of_iff (Bindings.spares_flat_map_iff _ _)
  | max operands ih =>
      rw [assignments_choice rfl, assign, assign_all_eq_mapM, substitute, substitute_all_eq_map]
      exact ((Guarded.mapM ih).returns maximum).of_iff (Bindings.spares_flat_map_iff _ _)
  | slice extent start stop extentIh startIh stopIh =>
      rw [assignments_slice]
      refine (extentIh.bind ((assign_bound_guarded startIh).bind
        ((assign_bound_guarded stopIh).returns _))).of_iff ?_
      rw [Bindings.spares_append_iff, Bindings.spares_append_iff]

theorem assign_all_guarded (bindings : Bindings) (operands : List Scalar) :
    Guarded (∀ operand ∈ operands, bindings.Spares operand.assignments)
      (assignAll bindings.scalars operands) (substituteAll bindings.scalars operands) := by
  rw [assign_all_eq_mapM, substitute_all_eq_map]
  exact .mapM fun operand _ => assign_guarded bindings operand

end Scalar

theorem Interval.assign_guarded (bindings : Bindings) (interval : Interval) :
    Guarded (bindings.Spares interval.assignments) (interval.assign bindings.scalars)
      (interval.substitute bindings.scalars) := by
  refine ((Scalar.assign_bound_guarded fun given _ => given.assign_guarded bindings).bind
    ((Scalar.assign_bound_guarded fun given _ => given.assign_guarded bindings).returns _)).of_iff ?_
  rw [assignments, bounds, List.flatMap_append, Bindings.spares_append_iff]

theorem FillValue.assign_guarded (bindings : Bindings) (fill : FillValue) :
    Guarded (∀ scalar ∈ fill.scalars, bindings.Spares scalar.assignments)
      (fill.assign bindings.scalars) (fill.substitute bindings.scalars) := by
  cases fill with
  | explicit value =>
      exact ((value.assign_guarded bindings).returns explicit).of_iff (by simp [scalars])
  | boundary side => exact (Guarded.done _).of_iff (by simp [scalars])

namespace Waveform

theorem assign_all_eq_mapM (bindings : ScalarBindings) (parts : List Waveform) :
    assignAll bindings parts = parts.mapM (assign bindings) := by
  induction parts with
  | nil => rfl
  | cons part rest ih => rw [assignAll, List.mapM_cons, ih]

theorem substitute_all_eq_map (bindings : ScalarBindings) (parts : List Waveform) :
    substituteAll bindings parts = parts.map (substitute bindings) := by
  induction parts with
  | nil => rfl
  | cons part rest ih => rw [substituteAll, List.map_cons, ih]

theorem spares_iff (waveform : Waveform) :
    bindings.Spares waveform.assignments ↔
      (∀ scalar ∈ waveform.scalars, bindings.Spares scalar.assignments) ∧
        ∀ child ∈ waveform.children, bindings.Spares child.assignments := by
  simp only [assignments, Bindings.spares_flat_map_iff]
  exact each_node_iff _ waveform

theorem assign_guarded (bindings : Bindings) (waveform : Waveform) :
    Guarded (bindings.Spares waveform.assignments) (waveform.assign bindings.scalars)
      (waveform.substitute bindings.scalars) := by
  have taken := Scalar.assign_guarded bindings
  induction waveform using Waveform.parts_induction with
  | constant value duration =>
      refine ((taken value).bind ((taken duration).returns _)).of_iff ?_
      rw [spares_iff]
      simp [scalars, children]
  | ramp start stop duration =>
      refine ((taken start).bind ((taken stop).bind ((taken duration).returns _))).of_iff ?_
      rw [spares_iff]
      simp [scalars, children]
  | poly coefficients duration =>
      refine ((Scalar.assign_all_guarded bindings coefficients).bind
        ((taken duration).returns _)).of_iff ?_
      rw [spares_iff]
      simp [scalars, children, or_imp, forall_and]
  | native name function duration parameters =>
      refine ((Scalar.assign_all_guarded bindings parameters).bind
        ((taken duration).returns _)).of_iff ?_
      rw [spares_iff]
      simp [scalars, children, and_comm]
  | negative inner ih =>
      refine (ih.returns _).of_iff ?_
      rw [spares_iff]
      simp [scalars, children]
  | add left right leftIh rightIh =>
      refine (leftIh.bind (rightIh.returns _)).of_iff ?_
      rw [spares_iff]
      simp [scalars, children]
  | scale factor inner ih =>
      refine (ih.bind ((taken factor).returns _)).of_iff ?_
      rw [spares_iff]
      simp [scalars, children, and_comm]
  | slice inner interval ih =>
      refine (ih.bind ((interval.assign_guarded bindings).returns _)).of_iff ?_
      rw [spares_iff]
      simp [scalars, children, Interval.assignments, and_comm]
  | append parts ih =>
      rw [assign, assign_all_eq_mapM, substitute, substitute_all_eq_map]
      refine ((Guarded.mapM ih).returns _).of_iff ?_
      rw [spares_iff]
      simp [scalars, children]
  | record name inner side ih =>
      have last : ∀ made : Waveform, Guarded True
          (if bindings.scalars.contains name then return made else return .record name made side)
          (if bindings.scalars.contains name then made else .record name made side) := by
        intro made
        split_ifs <;> exact .done _
      refine (ih.bind (last _)).of_iff ?_
      rw [spares_iff]
      simp [scalars, children]
  | sample inner step interpolation ih =>
      refine (ih.bind ((taken step).returns _)).of_iff ?_
      rw [spares_iff]
      simp [scalars, children, and_comm]
  | smooth inner radius kernel ih =>
      refine (ih.bind ((taken radius).returns _)).of_iff ?_
      rw [spares_iff]
      simp [scalars, children, and_comm]
  | aligned inner alignment fill ih =>
      refine (ih.bind ((fill.assign_guarded bindings).returns _)).of_iff ?_
      rw [spares_iff]
      simp [scalars, children, and_comm]

end Waveform

namespace Modulation

theorem assign_locations_guarded (bindings : Bindings) (locations : List Location) :
    Guarded (∀ location ∈ locations, bindings.Spares location.weight.assignments)
      (assignLocations bindings.scalars locations)
      (locations.map (Location.substitute bindings.scalars)) := by
  induction locations with
  | nil => exact (Guarded.done []).of_iff (by simp)
  | cons location rest ih =>
      refine ((location.weight.assign_guarded bindings).bind (ih.returns _)).of_iff ?_
      exact List.forall_mem_cons

theorem assign_guarded (bindings : Bindings) (modulation : Modulation) :
    Guarded (bindings.Spares modulation.assignments) (modulation.assign bindings)
      (modulation.substitute bindings) := by
  cases modulation with
  | uniform => exact (Guarded.done _).of_iff (iff_true_intro Bindings.spares_nil)
  | vector name =>
      refine Guarded.of_iff ?_ (iff_true_intro Bindings.spares_nil)
      rw [assign, substitute]
      cases bindings.vectors.find? name <;> exact .done _
  | assignedVector name values =>
      rw [assign, substitute]
      constructor
      · intro spared
        rw [(Bindings.spares_vector_iff name values).1 spared]
      · intro rebound
        cases found : bindings.vectors.find? name with
        | none => exact absurd ((Bindings.spares_vector_iff name values).2 found) rebound
        | some attempted => exact ⟨_, _, _, rfl⟩
  | scaled locations =>
      refine ((assign_locations_guarded bindings locations).returns ofLocations).of_iff ?_
      exact Bindings.spares_flat_map_iff _ _

end Modulation

theorem Drive.assign_guarded (bindings : Bindings) (drive : Drive) :
    Guarded (bindings.Spares drive.assignments) (drive.assign bindings)
      (drive.substitute bindings) :=
  ((drive.target.assign_guarded bindings).bind
    ((drive.waveform.assign_guarded bindings).returns _)).of_iff (Bindings.spares_append_iff _ _)

theorem Field.assign_guarded (bindings : Bindings) (field : Field) :
    Guarded (bindings.Spares field.assignments) (field.assign bindings)
      (field.substitute bindings) :=
  ((Guarded.mapM fun drive _ => drive.assign_guarded bindings).returns ofDrives).of_iff
    (Bindings.spares_flat_map_iff _ _)

theorem PerField.mapM_guarded {α β : Type} {guard : α → Prop} {work : α → Outcome β}
    {result : α → β} (table : PerField α)
    (each : ∀ value, Guarded (guard value) (work value) (result value)) :
    Guarded (∀ entry ∈ table.entries, guard entry.2) (table.mapM work) (table.map result) := by
  have entryGuarded : ∀ entry ∈ table.entries, Guarded (guard entry.2)
      (do let value ← work entry.2; return (entry.1, value)) (entry.1, result entry.2) :=
    fun entry _ => (each entry.2).returns _
  have whole := (Guarded.mapM entryGuarded).returns ofEntries
  have same : ofEntries (table.entries.map fun entry => (entry.1, result entry.2)) =
      table.map result := by
    obtain ⟨detuning, amplitude, phase⟩ := table
    cases detuning <;> cases amplitude <;> cases phase <;> rfl
  rw [same] at whole
  exact whole

theorem PerCoupling.mapM_guarded {α β : Type} {guard : α → Prop} {work : α → Outcome β}
    {result : α → β} (table : PerCoupling α)
    (each : ∀ value, Guarded (guard value) (work value) (result value)) :
    Guarded (∀ entry ∈ table.entries, guard entry.2) (table.mapM work) (table.map result) := by
  have entryGuarded : ∀ entry ∈ table.entries, Guarded (guard entry.2)
      (do let value ← work entry.2; return (entry.1, value)) (entry.1, result entry.2) :=
    fun entry _ => (each entry.2).returns _
  have whole := (Guarded.mapM entryGuarded).returns ofEntries
  have same : ofEntries (table.entries.map fun entry => (entry.1, result entry.2)) =
      table.map result := by
    obtain ⟨rydberg, hyperfine⟩ := table
    cases rydberg <;> cases hyperfine <;> rfl
  rw [same] at whole
  exact whole

namespace Pulse

theorem assign_all_eq_mapM (bindings : Bindings) (parts : List Pulse) :
    assignAll bindings parts = parts.mapM (assign bindings) := by
  induction parts with
  | nil => rfl
  | cons part rest ih => rw [assignAll, List.mapM_cons, ih]

theorem substitute_all_eq_map (bindings : Bindings) (parts : List Pulse) :
    substituteAll bindings parts = parts.map (substitute bindings) := by
  induction parts with
  | nil => rfl
  | cons part rest ih => rw [substituteAll, List.map_cons, ih]

theorem assignments_all_eq (parts : List Pulse) :
    assignmentsAll parts = parts.flatMap assignments := by
  induction parts with
  | nil => rfl
  | cons part rest ih => rw [assignmentsAll, List.flatMap_cons, ih]

theorem assign_guarded (bindings : Bindings) (pulse : Pulse) :
    Guarded (bindings.Spares pulse.assignments) (pulse.assign bindings)
      (pulse.substitute bindings) := by
  induction pulse using Pulse.parts_induction with
  | plain fields =>
      refine ((fields.mapM_guarded fun field => field.assign_guarded bindings).returns plain).of_iff ?_
      exact Bindings.spares_flat_map_iff _ _
  | append parts ih =>
      rw [assign, assign_all_eq_mapM, substitute, substitute_all_eq_map, assignments,
        assignments_all_eq]
      exact ((Guarded.mapM ih).returns append).of_iff (Bindings.spares_flat_map_iff _ _)
  | slice inner interval ih =>
      exact (ih.bind ((interval.assign_guarded bindings).returns _)).of_iff
        (Bindings.spares_append_iff _ _)
  | named name inner ih => exact ih.returns (named name)

end Pulse

namespace Sequence

theorem assign_all_eq_mapM (bindings : Bindings) (parts : List Sequence) :
    assignAll bindings parts = parts.mapM (assign bindings) := by
  induction parts with
  | nil => rfl
  | cons part rest ih => rw [assignAll, List.mapM_cons, ih]

theorem substitute_all_eq_map (bindings : Bindings) (parts : List Sequence) :
    substituteAll bindings parts = parts.map (substitute bindings) := by
  induction parts with
  | nil => rfl
  | cons part rest ih => rw [substituteAll, List.map_cons, ih]

theorem assignments_all_eq (parts : List Sequence) :
    assignmentsAll parts = parts.flatMap assignments := by
  induction parts with
  | nil => rfl
  | cons part rest ih => rw [assignmentsAll, List.flatMap_cons, ih]

theorem assign_guarded (bindings : Bindings) (sequence : Sequence) :
    Guarded (bindings.Spares sequence.assignments) (sequence.assign bindings)
      (sequence.substitute bindings) := by
  induction sequence using Sequence.parts_induction with
  | plain pulses =>
      refine ((pulses.mapM_guarded fun pulse => pulse.assign_guarded bindings).returns plain).of_iff ?_
      exact Bindings.spares_flat_map_iff _ _
  | append parts ih =>
      rw [assign, assign_all_eq_mapM, substitute, substitute_all_eq_map, assignments,
        assignments_all_eq]
      exact ((Guarded.mapM ih).returns append).of_iff (Bindings.spares_flat_map_iff _ _)
  | slice inner interval ih =>
      exact (ih.bind ((interval.assign_guarded bindings).returns _)).of_iff
        (Bindings.spares_append_iff _ _)
  | named name inner ih => exact ih.returns (named name)

end Sequence

theorem Node.assign_guarded (bindings : Bindings) (node : Node) :
    Guarded (bindings.Spares node.assignments) (node.assign bindings)
      (node.substitute bindings) := by
  cases node with
  | scalar value => exact (value.assign_guarded bindings).map scalar
  | waveform value => exact (value.assign_guarded bindings).map waveform
  | modulation value => exact (value.assign_guarded bindings).map modulation
  | field value => exact (value.assign_guarded bindings).map field
  | pulse value => exact (value.assign_guarded bindings).map pulse
  | sequence value => exact (value.assign_guarded bindings).map sequence
  | circuit value =>
      exact ((value.sequence.assign_guarded bindings).returns fun made =>
        ({ value with sequence := made } : Circuit)).map circuit
  | register value => exact (Guarded.done _).of_iff (iff_true_intro Bindings.spares_nil)
  | series value => exact (Guarded.done _).of_iff (iff_true_intro Bindings.spares_nil)

end Analog
