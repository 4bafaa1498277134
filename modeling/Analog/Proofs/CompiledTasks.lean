import Analog.Proofs.ChannelEquality
import Analog.Proofs.FlatSequences
import Analog.Proofs.KnownForms
import Analog.Proofs.Neighbours
import Analog.Proofs.SteppedWaveforms
import Analog.Task
import Analog.Waveform.Builtin

/-!
# Compiled tasks

What compilation goes through on its way to a task: a completed sequence is regular, so that
its flat form has one duration for all channels, and lowering keeps durations.
-/

set_option autoImplicit false

namespace Analog

open Breakpoints

/-- A plain pulse in canonical form that is level and drives all fields or none. -/
structure PerField.Regular (bindings : ScalarBindings) (fields : PerField Field) : Prop where
  numerical : fields.EachDrive Drive.Numerical
  level : fields.Level bindings
  complete : fields.Complete

/-- A plain sequence of canonical pulses that last equally long where they drive anything. -/
structure PerCoupling.Regular (bindings : ScalarBindings) (pulses : PerCoupling Pulse) : Prop where
  plains : pulses.EachPulse fun pulse => ∀ fields ∈ pulse.plains, fields.Regular bindings
  lasts : ∃ total, pulses.EachPulse fun pulse =>
    pulse.Undriven ∨ pulse.symbolicDuration.eval bindings = .ok total

theorem PerCoupling.Regular.level {bindings : ScalarBindings} {pulses : PerCoupling Pulse}
    (regular : pulses.Regular bindings) : pulses.Level bindings :=
  ⟨fun coupling pulse found fields member =>
    (regular.plains coupling pulse found fields member).level, regular.lasts⟩

theorem Sequence.holds_regular {bindings : ScalarBindings} {sequence : Sequence}
    (regular : ∀ pulses ∈ sequence.plains, pulses.Regular bindings) {coupling : Coupling}
    {fields : PerField Field} (holds : sequence.Holds coupling fields) :
    fields.Regular bindings := by
  obtain ⟨pulses, pulsesMember, pulse, found, member⟩ := holds
  exact (regular pulses pulsesMember).plains coupling pulse found fields member

namespace Canonical

variable {bindings : ScalarBindings}

theorem regular_empty : (PerField.empty : PerField Field).Regular bindings := by
  refine ⟨PerField.each_drive_empty, ⟨⟨0, PerField.each_drive_empty⟩, fun name field found => ?_⟩, ?_⟩
  · simp at found
  · exact fun name _ drives => absurd drives (PerField.not_drives_empty name)

theorem FieldsRefine.regular {given result : PerField Field}
    (refine : FieldsRefine bindings given result) (even : given.Even bindings)
    (complete : given.Complete) : result.Regular bindings := by
  obtain ⟨length, lasts⟩ := even
  refine ⟨refine.numerical, ⟨⟨length, refine.lasts lasts⟩, fun name field => refine.apart⟩, ?_⟩
  intro name other
  rw [refine.drives_iff, refine.drives_iff]
  exact complete name other

/-- The canonical form of level pulses that drive all fields or none is regular. -/
theorem level_regular {given result : PerCoupling Pulse}
    (refine : ∀ coupling, Option.Rel (PulseRefines bindings) (given.get? coupling)
      (result.get? coupling)) (level : given.Level bindings)
    (complete : given.EachPulse fun pulse => ∀ fields ∈ pulse.plains, fields.Complete) :
    result.Regular bindings := by
  have source : ∀ coupling pulse, result.get? coupling = some pulse → ∃ before,
      given.get? coupling = some before ∧ PulseRefines bindings before pulse := by
    intro coupling pulse found
    have related := refine coupling
    rw [found] at related
    generalize given.get? coupling = before at related ⊢
    cases related with
    | some refines => exact ⟨_, rfl, refines⟩
  obtain ⟨plains, total, lasts⟩ := level
  refine ⟨fun coupling pulse found => ?_, total, fun coupling pulse found => ?_⟩
  · obtain ⟨before, beforeFound, refines⟩ := source coupling pulse found
    intro fields member
    rcases refines.plains fields member with rfl | ⟨plain, plainMember, related⟩
    · exact regular_empty
    · exact related.regular (plains coupling before beforeFound plain plainMember).even
        (complete coupling before beforeFound plain plainMember)
  · obtain ⟨before, beforeFound, refines⟩ := source coupling pulse found
    rcases lasts coupling before beforeFound with undriven | evaluates
    · left
      intro fields member name drives
      rcases refines.plains fields member with rfl | ⟨plain, plainMember, related⟩
      · exact PerField.not_drives_empty name drives
      · exact undriven plain plainMember name ((related.drives_iff name).1 drives)
    · right
      exact refines.lasts (fun plain member => (plains coupling before beforeFound plain member).even)
        total evaluates

end Canonical

namespace Routine

variable [Natives] {bindings : ScalarBindings}

theorem complete_regular {sequence completed : Sequence} (fixed : sequence.Fixed)
    (completes : complete bindings sequence = .ok completed) :
    completed.Fixed ∧ ∀ pulses ∈ completed.plains, pulses.Regular bindings := by
  obtain ⟨canonical, canonicalOk, rest⟩ := (Outcome.bind_ok_iff _ _ _).1 completes
  obtain ⟨padded, paddedOk, completedOk⟩ := (Outcome.bind_ok_iff _ _ _).1 rest
  have canonicalRefines := (@Canonical.sequence_keeps bindings sequence fixed).afresh
    Canonical.remembers_nothing canonicalOk
  obtain ⟨paddedFixed, plains⟩ :=
    Sequence.pad_ok Scalar.fixed_family canonicalRefines.fixed paddedOk
  have completedRefines := (@Canonical.sequence_keeps bindings padded paddedFixed).afresh
    Canonical.remembers_nothing completedOk
  refine ⟨completedRefines.fixed, fun pulses member => ?_⟩
  rcases completedRefines.plains pulses member with rfl | ⟨source, sourceMember, related⟩
  · exact ⟨fun coupling pulse found => by simp at found, 0, fun coupling pulse found => by
      simp at found⟩
  · obtain ⟨level, covers⟩ := plains source sourceMember
    exact Canonical.level_regular related level fun coupling pulse found fields inside =>
      (covers coupling pulse found fields inside).complete

end Routine

namespace Modulation

theorem coefficients_length {bindings : ScalarBindings} {modulation : Modulation} {sites : Nat}
    {values : List Decimal} (evaluates : modulation.coefficients bindings sites = .ok values) :
    values.length = sites := by
  cases modulation with
  | uniform =>
      rw [coefficients, Except.ok.injEq] at evaluates
      rw [← evaluates, List.length_replicate]
  | vector name => exact absurd evaluates (by simp [coefficients])
  | assignedVector name given =>
      rw [coefficients] at evaluates
      split_ifs at evaluates with same
      rw [Except.ok.injEq] at evaluates
      rw [← evaluates, same]
  | scaled locations =>
      obtain ⟨listed, _, rest⟩ := (Outcome.bind_ok_iff _ _ _).1 evaluates
      rw [Outcome.pure_ok_iff] at rest
      rw [← rest, List.length_map, List.length_range]

end Modulation

theorem Layout.coefficients_length {bindings : ScalarBindings} {modulation : Modulation}
    {layout : Layout} {values : List Decimal}
    (evaluates : layout.coefficients bindings modulation = .ok values) :
    values.length = layout.sites.length := by
  cases layout with
  | plain register => exact Modulation.coefficients_length evaluates
  | tiled tiling =>
      obtain ⟨base, _, rest⟩ := (Outcome.bind_ok_iff _ _ _).1 evaluates
      rw [Outcome.pure_ok_iff] at rest
      rw [← rest, Tiling.length_spread, Layout.sites, Tiling.length_sites]

namespace Sequence

variable {bindings : ScalarBindings} {sequence : Sequence}

theorem drives_every_field (regular : ∀ pulses ∈ sequence.plains, pulses.Regular bindings)
    {channel : Channel} {waveform : Waveform}
    (member : (channel, waveform) ∈ FlatSequence.drives sequence.flatten) (name : FieldName) :
    ∃ other ∈ FlatSequence.drives sequence.flatten,
      other.1.coupling = channel.coupling ∧ other.1.field = name := by
  obtain ⟨field, found, driveMember⟩ := (FlatSequence.mem_drives_iff _ _ _).1 member
  have gathers := sequence.flatten_gathers channel.coupling
  obtain ⟨fields, holds, driven⟩ :=
    (gathers.drives_iff channel.field).1 ⟨field, found, List.ne_nil_of_mem driveMember⟩
  obtain ⟨otherField, otherFound, notEmpty⟩ := (gathers.drives_iff name).2
    ⟨fields, holds, (holds_regular regular holds).complete channel.field name driven⟩
  obtain ⟨drive, otherMember⟩ := List.exists_mem_of_ne_nil _ notEmpty
  exact ⟨(⟨channel.coupling, name, drive.target⟩, drive.waveform),
    (FlatSequence.mem_drives_iff _ _ _).2 ⟨otherField, otherFound, otherMember⟩, rfl, rfl⟩

theorem drive_filled (regular : ∀ pulses ∈ sequence.plains, pulses.Regular bindings)
    {channel : Channel} {waveform : Waveform}
    (member : (channel, waveform) ∈ FlatSequence.drives sequence.flatten) : waveform.Filled := by
  obtain ⟨field, found, driveMember⟩ := (FlatSequence.mem_drives_iff _ _ _).1 member
  refine sequence.flatten_filled channel.coupling (fun fields holds => ?_) channel.field field found _
    driveMember
  exact (holds_regular regular holds).numerical.mono fun _ drive => drive.waveform.filled

end Sequence

namespace Outcome

theorem in_context_ok_iff {α : Type} (context : String) (outcome : Outcome α) (result : α) :
    outcome.inContext context = .ok result ↔ outcome = .ok result := by
  cases outcome with
  | ok value => rfl
  | error failure =>
      unfold inContext
      dsimp only
      split_ifs <;> simp

end Outcome

namespace Routine

section

variable [Natives]

/-- What a compiled channel is made of. -/
structure Compiles (device : Device) (bindings : ScalarBindings) (layout : Layout)
    (given : Channel × Waveform) (compiled : CompiledChannel) : Prop where
  channel : compiled.channel = given.1
  coefficients : layout.coefficients bindings given.1.target = .ok compiled.coefficients
  valid : given.2.validate bindings given.1.field.target = .ok ()
  lowers : given.2.lower bindings given.1.field.target = .ok compiled.series
  permitted : compiled.checkRange device = .ok ()

theorem compile_channel_ok_iff (device : Device) (bindings : ScalarBindings) (layout : Layout)
    (given : Channel × Waveform) (compiled : CompiledChannel) :
    compileChannel device bindings layout given.1 given.2 = .ok compiled ↔
      Compiles device bindings layout given compiled := by
  unfold compileChannel CompiledChannel.lower
  simp only [Outcome.bind_ok_iff, Outcome.pure_ok_iff, Outcome.in_context_ok_iff]
  constructor
  · rintro ⟨_, ⟨coefficients, coefficientsOk, _, valid, series, seriesOk, rfl⟩, _, permitted, rfl⟩
    exact ⟨rfl, coefficientsOk, valid, seriesOk, permitted⟩
  · rintro ⟨channel, coefficients, valid, lowers, permitted⟩
    refine ⟨compiled, ⟨_, coefficients, _, valid, _, lowers, ?_⟩, _, permitted, rfl⟩
    rw [← channel]

/-- What a compiled task is made of. -/
structure Compilation (routine : Routine) (device : Device) (arguments : List Decimal) (batch : Nat)
    (task : Task) (circuit : Circuit) (sequence : Sequence) : Prop where
  bound : routine.bound batch arguments = .ok (circuit, task.bindings)
  completed : complete task.bindings.scalars circuit.sequence = .ok sequence
  sites : task.sites = circuit.layout.sites
  lasts : (FlatSequence.toSequence sequence.flatten).symbolicDuration.eval task.bindings.scalars =
    .ok task.duration
  limited : ∀ limit ∈ device.maxTime, task.duration ≤ limit
  channels : List.Forall₂ (Compiles device task.bindings.scalars circuit.layout)
    (FlatSequence.drives sequence.flatten) task.channels

theorem compilation_of_compiles {routine : Routine} {device : Device} {arguments : List Decimal}
    {batch : Nat} {task : Task} (compiles : routine.compileBatch device arguments batch = .ok task) :
    ∃ circuit sequence, Compilation routine device arguments batch task circuit sequence := by
  obtain ⟨⟨circuit, bindings⟩, boundOk, rest⟩ := (Outcome.bind_ok_iff _ _ _).1 compiles
  obtain ⟨sequence, completed, rest⟩ := (Outcome.bind_ok_iff _ _ _).1 rest
  have parts : (∀ limit ∈ device.maxTime, (FlatSequence.toSequence sequence.flatten).checkDuration
        bindings.scalars limit = .ok ()) ∧
      (do
        let duration ←
          (FlatSequence.toSequence sequence.flatten).symbolicDuration.eval bindings.scalars
        let channels ← (FlatSequence.drives sequence.flatten).mapM fun given : Channel × Waveform =>
          compileChannel device bindings.scalars circuit.layout given.1 given.2
        return (⟨batch, bindings, circuit.layout.sites, circuit.layout.mappings, duration,
          channels⟩ : Task)) = .ok task := by
    dsimp only at rest
    split at rest
    case h_1 limit isLimit =>
        obtain ⟨checked, rest⟩ := (Outcome.check_ok_iff _ _ _).1 rest
        exact ⟨by simpa [isLimit] using checked, rest⟩
    case h_2 noLimit => exact ⟨by simp [noLimit], rest⟩
  obtain ⟨limited, rest⟩ := parts
  obtain ⟨duration, lasts, rest⟩ := (Outcome.bind_ok_iff _ _ _).1 rest
  obtain ⟨channels, channelsOk, same⟩ := (Outcome.bind_ok_iff _ _ _).1 rest
  rw [Outcome.pure_ok_iff] at same
  subst same
  rw [Outcome.mapM_ok_iff] at channelsOk
  refine ⟨circuit, sequence, boundOk, completed, rfl, lasts, fun limit isLimit => ?_, ?_⟩
  · obtain ⟨checked, checkedOk, passed⟩ := (Outcome.bind_ok_iff _ _ _).1 (limited limit isLimit)
    rw [lasts, Except.ok.injEq] at checkedOk
    subst checkedOk
    split_ifs at passed with exceeds
    exact not_lt.1 exceeds
  · exact channelsOk.imp fun given compiled compiledOk =>
      (compile_channel_ok_iff _ _ _ given compiled).1 compiledOk

theorem Compilation.spans {routine : Routine} {device : Device} {arguments : List Decimal}
    {batch : Nat} {task : Task} {circuit : Circuit} {sequence : Sequence}
    (compilation : Compilation routine device arguments batch task circuit sequence) :
    (∀ pulses ∈ sequence.plains, pulses.Regular task.bindings.scalars) ∧
      FlatSequence.Spans task.bindings.scalars (some task.duration) sequence.flatten := by
  obtain ⟨fixed, regular⟩ :=
    complete_regular (bound_fixed compilation.bound) compilation.completed
  obtain ⟨span, spans, _⟩ := sequence.flatten_spans
    (fixed.mono sequence Scalar.fixed_family.tidied) fun pulses member => (regular pulses member).level
  rw [(spans.worth task.duration).1 compilation.lasts] at spans
  exact ⟨regular, spans⟩

/-- The series of a compiled channel lasts as long as the task. -/
theorem Compilation.series_formed {routine : Routine} {device : Device} {arguments : List Decimal}
    {batch : Nat} {task : Task} {circuit : Circuit} {sequence : Sequence}
    (compilation : Compilation routine device arguments batch task circuit sequence)
    {compiled : CompiledChannel} (member : compiled ∈ task.channels) :
    compiled.series.duration = task.duration ∧ WellFormed compiled.series.points := by
  obtain ⟨⟨channel, waveform⟩, givenMember, made⟩ :=
    Outcome.source_of_mem compilation.channels member
  obtain ⟨regular, spans⟩ := compilation.spans
  have measured := FlatSequence.drive_measured spans givenMember
  obtain ⟨lasts, formed⟩ :=
    Waveform.lower_formed (Sequence.drive_filled regular givenMember) made.lowers
  refine ⟨?_, formed⟩
  have same := (measured.lasts _).1 lasts
  rw [Option.some.injEq] at same
  exact same.symm

/-- The shape of every compiled task: all series last as long as the task, all channels are told
apart, a coupling that has a channel has one for every field, and every channel has a coefficient
for every site. -/
theorem compiled_task_shape (routine : Routine) (device : Device) (arguments : List Decimal)
    (batch : Nat) (task : Task) (compiles : routine.compileBatch device arguments batch = .ok task) :
    (∀ compiled ∈ task.channels, compiled.series.duration = task.duration) ∧
      (task.channels.Pairwise fun first second =>
        first.channel.same second.channel = false ∧ second.channel.same first.channel = false) ∧
      (∀ compiled ∈ task.channels, ∀ name, ∃ other ∈ task.channels,
        other.channel.coupling = compiled.channel.coupling ∧ other.channel.field = name) ∧
      ∀ compiled ∈ task.channels, compiled.coefficients.length = task.sites.length := by
  obtain ⟨circuit, sequence, compilation⟩ := compilation_of_compiles compiles
  obtain ⟨regular, spans⟩ := compilation.spans
  have made := compilation.channels
  refine ⟨fun compiled member => (compilation.series_formed member).1, ?_, ?_, ?_⟩
  · have sameChannels : task.channels.map (·.channel) =
        (FlatSequence.drives sequence.flatten).map Prod.fst :=
      Outcome.map_eq_of_related made fun _ _ isMade => isMade.channel
    have distinct := List.pairwise_map.2 (FlatSequence.drives_distinct spans)
    rw [← sameChannels] at distinct
    exact List.pairwise_map.1 distinct
  · intro compiled member name
    obtain ⟨⟨channel, waveform⟩, givenMember, isMade⟩ := Outcome.source_of_mem made member
    obtain ⟨other, otherMember, coupling, field⟩ :=
      Sequence.drives_every_field regular givenMember name
    obtain ⟨otherCompiled, compiledMember, otherMade⟩ := Outcome.target_of_mem made otherMember
    refine ⟨otherCompiled, compiledMember, ?_, ?_⟩
    · rw [otherMade.channel, isMade.channel, coupling]
    · rw [otherMade.channel, field]
  · intro compiled member
    obtain ⟨given, _, isMade⟩ := Outcome.source_of_mem made member
    rw [compilation.sites]
    exact Layout.coefficients_length isMade.coefficients

/-- A site whose detuning grows from zero to one within the time two. -/
def singleRamp : Routine where
  circuit := ⟨.plain (.chain 1 1), .plain ⟨some (.plain
    ⟨some ⟨[⟨.uniform, .ramp (.literal 0) (.literal 1) (.literal 2)⟩]⟩, none, none⟩), none⟩⟩

def completedRamp : Sequence :=
  .plain ⟨some (.plain
    ⟨some ⟨[⟨.uniform, .ramp (.literal 0) (.literal 1) (.literal 2)⟩]⟩,
      some ⟨[⟨.uniform, .zero (.literal 2)⟩]⟩, some ⟨[⟨.uniform, .zero (.literal 2)⟩]⟩⟩), none⟩

def rampTask : Task where
  batch := 0
  bindings := .empty
  sites := (Register.chain 1 1).sites
  mappings := []
  duration := 2
  channels := [⟨⟨.rydberg, .detuning, .uniform⟩, [1], .linear ⟨[⟨0, 0⟩, ⟨2, 1⟩]⟩⟩,
    ⟨⟨.rydberg, .rabiAmplitude, .uniform⟩, [1], .linear ⟨[⟨0, 0⟩, ⟨2, 0⟩]⟩⟩,
    ⟨⟨.rydberg, .rabiPhase, .uniform⟩, [1], .constant ⟨[⟨0, 0⟩, ⟨2, 0⟩]⟩⟩]

/-- Completing a single ramp adds the fields that are not driven. -/
theorem single_ramp_completes :
    complete .empty singleRamp.circuit.sequence = .ok completedRamp := by
  let line : Waveform := .ramp (.literal 0) (.literal 1) (.literal 2)
  let still : Waveform := .constant (.literal 0) (.literal 2)
  let forms : Canonical.Forms := [(line, line), (still, still)]
  have consistent : forms.Consistent :=
    Canonical.Forms.Distinct.consistent (by decide) (by simp [forms])
  have lineForm : Canonical.Gives forms (Canonical.field ⟨[⟨.uniform, line⟩]⟩) _ :=
    Canonical.single_drive_form .pure
      (Canonical.ramp_form consistent (by simp [forms, line]) (by decide))
  have stillForm : Canonical.Gives forms (Canonical.field ⟨[⟨.uniform, still⟩]⟩) _ :=
    Canonical.single_drive_form .pure
      (Canonical.constant_form consistent (by simp [forms, still]))
  have first : Canonical.afresh (Canonical.sequence singleRamp.circuit.sequence) =
      .ok singleRamp.circuit.sequence := by
    apply Canonical.Gives.afresh
    show Canonical.Gives forms _ _
    apply Canonical.plain_sequence_form
    rintro (_ | _)
    · refine .some (Canonical.plain_pulse_form ?_)
      rintro (_ | _ | _)
      exacts [.some lineForm, .none, .none]
    · exact .none
  have padded : singleRamp.circuit.sequence.pad .empty = .ok completedRamp := by
    have channels : singleRamp.circuit.sequence.channels = [⟨.rydberg, .detuning, .uniform⟩] :=
      Channel.unique_of_distinct (List.pairwise_singleton _ _)
    rw [Sequence.pad, channels]
    rfl
  have second : Canonical.afresh (Canonical.sequence completedRamp) = .ok completedRamp := by
    apply Canonical.Gives.afresh
    show Canonical.Gives forms _ _
    apply Canonical.plain_sequence_form
    rintro (_ | _)
    · refine .some (Canonical.plain_pulse_form ?_)
      rintro (_ | _ | _)
      exacts [.some lineForm, .some stillForm, .some stillForm]
    · exact .none
  rw [complete, first, Outcome.ok_bind, padded, Outcome.ok_bind, second]

def tightDevice : Device where
  maxTime := some 2
  limits := ⟨some ⟨some ⟨0, 1⟩, none, none⟩, none⟩

theorem single_ramp_compiles : singleRamp.compileBatch tightDevice [] 0 = .ok rampTask := by
  have bound : singleRamp.bound 0 [] = .ok (singleRamp.circuit, .empty) := rfl
  rw [compileBatch, bound, Outcome.ok_bind]
  change (complete .empty singleRamp.circuit.sequence >>= _) = _
  rw [single_ramp_completes]
  rfl

end

theorem compiled_task_shape_single_ramp :
    singleRamp.compileBatch tightDevice [] 0 = .ok rampTask ∧
      (∀ compiled ∈ rampTask.channels, compiled.series.duration = 2) ∧
      (∀ name, ∃ other ∈ rampTask.channels,
        other.channel.coupling = .rydberg ∧ other.channel.field = name) ∧
      ∀ compiled ∈ rampTask.channels, compiled.coefficients.length = 1 := by
  obtain ⟨lasts, _, fields, weights⟩ :=
    compiled_task_shape singleRamp tightDevice [] 0 rampTask single_ramp_compiles
  refine ⟨single_ramp_compiles, lasts, fun name => ?_, weights⟩
  exact fields ⟨⟨.rydberg, .detuning, .uniform⟩, [1], .linear ⟨[⟨0, 0⟩, ⟨2, 1⟩]⟩⟩
    (by simp [rampTask]) name

end Routine

end Analog
