import Analog.Proofs.ChannelCourses

/-!
# Courses of flat sequences

Flattening joins the waveforms of a channel in all parts, with a zero for each part that does not
drive it. If the channels of every part last equally long, then the joined waveform is pieced
together again, and its stretch is the course of the channel.
-/

set_option autoImplicit false

namespace Analog

open Scalar Stretch

variable {bindings : ScalarBindings}

namespace Flat

theorem piece_of_eq (name : FieldName) (target : Modulation) (part : FlatPulse × Scalar) :
    pieceOf name target part =
      (PerField.waveform? part.1 name target).getD (.zero part.2) := by
  unfold pieceOf PerField.waveform?
  cases part.1.get? name <;> rfl

section

variable {parts : List (FlatPulse × Scalar)}
  (each : ∀ part ∈ parts, PerField.EachDrive (·.target.Unlisted) part.1)
include each

theorem join_unlisted : (join parts).EachDrive (·.target.Unlisted) := by
  intro name field found drive member
  obtain ⟨_, rfl⟩ := (get_join_iff _ _ _).1 found
  rw [join_field_drives] at member
  obtain ⟨target, targetMember, rfl⟩ := List.mem_map.1 member
  obtain ⟨flat, flatMember, source, sourceFound, inside⟩ :=
    (targets_of_spec name _).2.1 target targetMember
  obtain ⟨part, partMember, rfl⟩ := List.mem_map.1 flatMember
  obtain ⟨sourceDrive, sourceMember, rfl⟩ := List.mem_map.1 inside
  exact each part partMember name source sourceFound sourceDrive sourceMember

theorem joined_of_part {part : FlatPulse × Scalar} (partMember : part ∈ parts) {name : FieldName}
    {field : Field} (found : part.1.get? name = some field) {drive : Drive}
    (member : drive ∈ field.drives) :
    ∃ waveform, (join parts).waveform? name drive.target = some waveform := by
  have unlisted := join_unlisted each
  obtain ⟨kept, keptMember, equal⟩ := (targets_of_spec name (parts.map Prod.fst)).2.2 part.1
    (List.mem_map_of_mem partMember) drive.target
      ⟨field, found, List.mem_map.2 ⟨drive, member, rfl⟩⟩
  obtain ⟨whole, wholeFound, inside⟩ := (join_modulates_iff _ _ _).2 keptMember
  obtain ⟨joined, joinedMember, rfl⟩ := List.mem_map.1 inside
  rw [← (unlisted name whole wholeFound joined joinedMember).same_iff.1 equal]
  exact ⟨joined.waveform, (PerField.waveform_some_iff unlisted (join_apart _) _ _ _).2
    ⟨whole, wholeFound, joinedMember⟩⟩

end

section

variable [Natives]

/-- Every channel of a flat pulse lasts for the given time and takes the given course, which is a
rest where the channel is not driven. -/
structure Runs (bindings : ScalarBindings) (length : Decimal)
    (course : FieldName → Modulation → Stretch) (flat : FlatPulse) : Prop where
  unlisted : PerField.EachDrive (·.target.Unlisted) flat
  apart : PerField.Apart flat
  driven : ∀ name target waveform, PerField.waveform? flat name target = some waveform →
    Waveform.Piecewise bindings waveform length ∧
      waveform.stretch bindings name.target = course name target
  idle : ∀ name target, PerField.waveform? flat name target = none →
    course name target = rest length

variable {flat : FlatPulse} {length : Decimal} {course other : FieldName → Modulation → Stretch}

theorem Runs.congr (runs : Runs bindings length course flat)
    (same : ∀ name target, course name target = other name target) :
    Runs bindings length other flat :=
  (funext fun name => funext (same name) : course = other) ▸ runs

theorem runs_of_undriven (undriven : ∀ name, ¬PerField.Drives flat name) :
    Runs bindings length (fun _ _ => rest length) flat := by
  have noDrive : ∀ {name field}, flat.get? name = some field → field.drives = [] := by
    intro name field found
    by_contra notEmpty
    exact undriven name ⟨field, found, notEmpty⟩
  refine ⟨fun name field found => ?_, fun name field found => ?_,
    fun name target waveform found => ?_, fun _ _ _ => rfl⟩
  · simp [noDrive found]
  · rw [noDrive found]
    exact List.Pairwise.nil
  · cases (PerField.waveform_none_of_undriven undriven).symm.trans found

theorem Runs.waveform_iff (runs : Runs bindings length course flat) (name : FieldName)
    (target : Modulation) (waveform : Waveform) :
    PerField.waveform? flat name target = some waveform ↔
      ∃ field, flat.get? name = some field ∧ ⟨target, waveform⟩ ∈ field.drives :=
  PerField.waveform_some_iff runs.unlisted runs.apart name target waveform

theorem Runs.lasts (runs : Runs bindings length course flat) :
    PerField.EachDrive (fun drive => Waveform.Piecewise bindings drive.waveform length) flat :=
  fun name field found drive member =>
    (runs.driven name drive.target drive.waveform
      ((runs.waveform_iff _ _ _).2 ⟨field, found, member⟩)).1

theorem Runs.duration (runs : Runs bindings length course flat)
    (empty : (∀ name, ¬PerField.Drives flat name) → length = 0) :
    Counts bindings (Pulse.plainDuration flat) length := by
  refine ⟨PerField.plain_duration_each Scalar.fixed_family
    (runs.lasts.mono fun _ piecewise => piecewise.fixed), ?_⟩
  by_cases undriven : ∀ name, ¬PerField.Drives flat name
  · rw [empty undriven]
    exact (PerField.plain_duration_zero undriven).evaluates
  · push Not at undriven
    exact (PerField.plain_duration_known
      (runs.lasts.mono fun _ piecewise => piecewise.fixed.mono Scalar.fixed_family.tidied)
      (runs.lasts.mono fun _ piecewise => piecewise.lasts) undriven).evaluates

/-- The waveform of a channel in a part, or the zero in its place. -/
theorem Runs.piece (runs : Runs bindings length course flat) {span : Scalar}
    (counts : Counts bindings span length) (nonneg : 0 ≤ length) (name : FieldName)
    (target : Modulation) :
    Waveform.Piecewise bindings (pieceOf name target (flat, span)) length ∧
      (pieceOf name target (flat, span)).stretch bindings name.target = course name target := by
  rw [piece_of_eq]
  cases found : PerField.waveform? flat name target with
  | some waveform => exact runs.driven name target waveform found
  | none =>
      refine ⟨.constant (literal_counts 0) counts nonneg, ?_⟩
      rw [runs.idle name target found]
      exact Waveform.zero_stretch counts.evaluates nonneg

theorem join_runs {ι : Type} {items : List ι} {part : ι → FlatPulse × Scalar}
    {lengths : ι → Decimal} {courses : ι → FieldName → Modulation → Stretch}
    (each : ∀ item ∈ items, Runs bindings (lengths item) (courses item) (part item).1)
    (counts : ∀ item ∈ items, Counts bindings (part item).2 (lengths item))
    (nonneg : ∀ item ∈ items, 0 ≤ lengths item) :
    Runs bindings (items.map lengths).sum
      (fun name target => (items.map fun item => courses item name target).prod)
      (join (items.map part)) := by
  have partsUnlisted : ∀ given ∈ items.map part, PerField.EachDrive (·.target.Unlisted) given.1 :=
    List.forall_mem_map.2 fun item member => (each item member).unlisted
  have unlisted := join_unlisted partsUnlisted
  have apart := join_apart (items.map part)
  refine ⟨unlisted, apart, fun name target waveform found => ?_, fun name target missing => ?_⟩
  · obtain ⟨field, fieldFound, member⟩ :=
      (PerField.waveform_some_iff unlisted apart name target waveform).1 found
    obtain ⟨⟨given, givenMember, _⟩, rfl⟩ := (get_join_iff _ _ _).1 fieldFound
    rw [join_field_drives] at member
    obtain ⟨asked, _, same⟩ := List.mem_map.1 member
    rw [Drive.mk.injEq] at same
    obtain ⟨rfl, rfl⟩ := same
    have pieces := fun item itemMember => (each item itemMember).piece (counts item itemMember)
      (nonneg item itemMember) name asked
    rw [List.map_map]
    have filled : items.map (pieceOf name asked ∘ part) ≠ [] := by
      obtain ⟨item, itemMember, _⟩ := List.mem_map.1 givenMember
      exact List.ne_nil_of_mem (List.mem_map_of_mem itemMember)
    have whole := Waveform.Piecewise.append filled
      (List.forall_mem_map.2 fun item itemMember => (pieces item itemMember).1.own)
    refine ⟨?_, ?_⟩
    · have lengths_eq : (items.map (pieceOf name asked ∘ part)).map (Waveform.extent bindings) =
          items.map lengths := by
        rw [List.map_map]
        exact List.map_congr_left fun item itemMember => (pieces item itemMember).1.extent_eq
      exact lengths_eq ▸ whole
    · rw [Waveform.append_stretch whole.pieced, List.map_map]
      congr 1
      exact List.map_congr_left fun item itemMember => (pieces item itemMember).2
  · rw [rest_sum (List.forall_mem_map.2 nonneg), List.map_map]
    congr 1
    refine List.map_congr_left fun item itemMember => (each item itemMember).idle name target ?_
    rw [Option.eq_none_iff_forall_ne_some]
    intro waveform found
    obtain ⟨field, fieldFound, member⟩ := ((each item itemMember).waveform_iff _ _ _).1 found
    obtain ⟨joined, isJoined⟩ := joined_of_part partsUnlisted (List.mem_map_of_mem itemMember)
      fieldFound member
    cases missing.symm.trans isJoined

end

end Flat

variable [Natives]

namespace PerField

/-- The channels of a plain pulse whose drives last equally long. -/
theorem Ready.runs {fields : PerField Field} (ready : fields.Ready bindings)
    (even : fields.Even bindings) :
    Flat.Runs bindings (fields.extent bindings) (fields.course bindings) fields := by
  have unlisted : fields.EachDrive (·.target.Unlisted) :=
    ready.each.mono fun _ drive => drive.unlisted
  refine ⟨unlisted, ready.apart, fun name target waveform found => ?_, fun _ _ missing =>
    course_of_none missing⟩
  obtain ⟨field, fieldFound, member⟩ :=
    (waveform_some_iff unlisted ready.apart name target waveform).1 found
  obtain ⟨length, lasts⟩ := even
  have whole : waveform.extent bindings = fields.extent bindings := by
    rw [extent_of_lasts lasts ⟨name, field, fieldFound, List.ne_nil_of_mem member⟩]
    exact Waveform.extent_of_lasts (lasts name field fieldFound _ member)
  refine ⟨whole ▸ (ready.each name field fieldFound _ member).piecewise, ?_⟩
  rw [course_of_some found, whole, sub_self, rest_zero, mul_one]

end PerField

namespace Pulse

theorem course_undriven {pulse : Pulse} (undriven : pulse.Undriven) (name : FieldName)
    (target : Modulation) : pulse.course bindings name target = 1 := by
  apply List.prod_eq_one
  rw [List.forall_mem_map]
  exact fun fields member => PerField.course_undriven (undriven fields member)

/-- The channels of the flat form of a pulse, in each plain pulse of which the drives last equally
long. -/
theorem Ready.flatten_runs {pulse : Pulse} (ready : pulse.Ready bindings)
    (even : ∀ fields ∈ pulse.plains, fields.Even bindings) :
    Flat.Runs bindings (pulse.extent bindings) (pulse.course bindings) pulse.flatten := by
  unfold Ready at ready
  induction pulse using Pulse.parts_induction with
  | plain fields =>
      rw [extent_plain]
      exact (PerField.Ready.runs ready (even fields (by simp [plains]))).congr fun name target =>
        (course_plain fields name target).symm
  | append parts ih =>
      rw [each_append_iff] at ready
      have each := fun part member => ih part member (ready part member) fun fields found =>
        even fields (by
          rw [plains, mem_plains_all]
          exact ⟨part, member, found⟩)
      rw [flatten, flatten_all_eq_map, List.map_map, extent_append]
      refine (Flat.join_runs each (fun part member => (each part member).duration fun undriven =>
        extent_undriven (part.undriven_iff.2 undriven)) fun part _ => part.extent_nonneg).congr
        fun name target => (course_append parts name target).symm
  | slice inner interval _ => exact ready.2.elim
  | named name inner ih => exact ih ready even

end Pulse

namespace PerCoupling

variable {pulses : PerCoupling Pulse}

omit [Natives] in
/-- The pulses of a level plain sequence last as long as it does, unless they drive nothing. -/
theorem extent_of_level (ready : pulses.EachPulse (Pulse.Ready bindings))
    (level : pulses.Level bindings) {coupling : Coupling} {pulse : Pulse}
    (found : pulses.get? coupling = some pulse) (driven : ¬pulse.Undriven) :
    pulse.extent bindings = pulses.extent bindings := by
  obtain ⟨_, total, lasts⟩ := level
  have total_eq : ∀ {other given}, pulses.get? other = some given → ¬given.Undriven →
      given.extent bindings = total := by
    intro other given givenFound givenDriven
    have evaluates := (lasts other given givenFound).resolve_left givenDriven
    exact Except.ok.inj ((ready other given givenFound).duration.evaluates.symm.trans evaluates)
  refine le_antisymm (extent_le found) ?_
  rcases pulses.extent_reached bindings with zero | ⟨other, given, givenFound, reaches⟩
  · exact zero ▸ pulse.extent_nonneg
  · rw [← reaches]
    by_cases undriven : given.Undriven
    · exact (Pulse.extent_undriven undriven).trans_le pulse.extent_nonneg
    · rw [total_eq givenFound undriven, total_eq found driven]

theorem flatten_runs (ready : pulses.EachPulse (Pulse.Ready bindings))
    (level : pulses.Level bindings) (coupling : Coupling) :
    Flat.Runs bindings (pulses.extent bindings)
      (fun name target => pulses.course bindings ⟨coupling, name, target⟩)
      (Padding.givenPulse pulses coupling).flatten := by
  by_cases undriven : (Padding.givenPulse pulses coupling).Undriven
  · refine (Flat.runs_of_undriven (Pulse.undriven_iff _ |>.1 undriven)).congr fun name target => ?_
    rw [course, Pulse.course_undriven undriven, Pulse.extent_undriven undriven, sub_zero, one_mul]
  · have isThere : ∃ pulse, pulses.get? coupling = some pulse := by
      by_contra missing
      rw [← Option.isSome_iff_exists, Option.not_isSome_iff_eq_none] at missing
      refine undriven fun fields member => ?_
      rw [Padding.givenPulse, missing, Option.getD_none, Pulse.plains, List.mem_singleton] at member
      exact member ▸ PerField.not_drives_empty
    obtain ⟨pulse, found⟩ := isThere
    have given : Padding.givenPulse pulses coupling = pulse := by
      rw [Padding.givenPulse, found, Option.getD_some]
    rw [given] at undriven ⊢
    have whole := extent_of_level ready level found undriven
    rw [← whole]
    refine ((ready coupling pulse found).flatten_runs fun fields member =>
      (level.plains coupling pulse found fields member).even).congr fun name target => ?_
    rw [course, given, ← whole, sub_self, rest_zero, mul_one]

end PerCoupling

namespace Sequence

/-- The channels of the flat form of a level sequence: each of them lasts as long as the sequence
and takes its course. -/
theorem Ready.flatten_runs {sequence : Sequence} (ready : sequence.Ready bindings)
    (level : ∀ pulses ∈ sequence.plains, pulses.Level bindings) (coupling : Coupling) :
    Flat.Runs bindings (sequence.extent bindings)
      (fun name target => sequence.course bindings ⟨coupling, name, target⟩)
      (FlatSequence.of sequence.flatten coupling) := by
  unfold Ready at ready
  induction sequence using Sequence.parts_induction generalizing coupling with
  | plain pulses =>
      have flat : FlatSequence.of (plain pulses).flatten coupling =
          (Padding.givenPulse pulses coupling).flatten := by
        rw [FlatSequence.of, flatten, PerCoupling.get_map, Padding.givenPulse]
        cases pulses.get? coupling <;> rfl
      rw [flat, extent_plain]
      exact (PerCoupling.flatten_runs ready (level pulses (by simp [plains])) coupling).congr
        fun name target => (course_plain pulses _).symm
  | append parts ih =>
      rw [each_append_iff] at ready
      have partLevel : ∀ part ∈ parts, ∀ pulses ∈ part.plains, pulses.Level bindings :=
        fun part member pulses found => level pulses (by
          rw [plains, mem_plains_all]
          exact ⟨part, member, found⟩)
      have each := fun part member => ih part member (ready part member) (partLevel part member)
      rw [flatten_append_of, extent_append]
      refine (Flat.join_runs (fun part member => each part member coupling) (fun part member => ?_)
        fun part _ => part.extent_nonneg).congr
        fun name target => (course_append parts ⟨coupling, name, target⟩).symm
      have partReady : part.Ready bindings := ready part member
      obtain ⟨span, spans, agrees⟩ := part.flatten_spans
        (partReady.fixed.mono part Scalar.fixed_family.tidied) (partLevel part member)
      refine ⟨?_, (spans.worth _).2 (agrees _ partReady.duration.evaluates)⟩
      refine longest_each Scalar.fixed_family fun duration isDuration => ?_
      obtain ⟨other, rfl⟩ := FlatSequence.durations_of_entries _ duration isDuration
      exact PerField.plain_duration_each Scalar.fixed_family
        ((each part member other).lasts.mono fun _ piecewise => piecewise.fixed)
  | slice inner interval _ => exact ready.2.elim
  | named name inner ih => exact ih ready level coupling

end Sequence

end Analog
