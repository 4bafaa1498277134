import Analog.Proofs.CanonicalChannels
import Analog.Proofs.CompleteChannels
import Analog.Proofs.PiecedWaveforms
import Analog.Proofs.RecordedValues

/-!
# Courses of channels

A channel takes its course through the plain pulses of a sequence: in each of them it follows
the waveform that drives it, and then rests for as long as other channels go on. For a sequence
whose parts are not cut the course is the stretch of the waveform that flattening joins.
-/

set_option autoImplicit false

namespace Analog

open Scalar Stretch

def greatest (lengths : List Decimal) : Decimal :=
  lengths.foldr max 0

theorem greatest_nonneg (lengths : List Decimal) : 0 ≤ greatest lengths := by
  cases lengths with
  | nil => exact le_rfl
  | cons first rest => exact (greatest_nonneg rest).trans (le_max_right _ _)

theorem le_greatest {lengths : List Decimal} {length : Decimal} (member : length ∈ lengths) :
    length ≤ greatest lengths := by
  induction lengths with
  | nil => exact absurd member List.not_mem_nil
  | cons first rest ih =>
      rcases List.mem_cons.1 member with rfl | later
      · exact le_max_left _ _
      · exact (ih later).trans (le_max_right _ _)

theorem greatest_reached (lengths : List Decimal) :
    greatest lengths = 0 ∨ greatest lengths ∈ lengths := by
  induction lengths with
  | nil => exact .inl rfl
  | cons first rest ih =>
      change max first (greatest rest) = 0 ∨ max first (greatest rest) ∈ first :: rest
      rcases max_choice first (greatest rest) with same | same
      · rw [same]
        exact .inr List.mem_cons_self
      · rw [same]
        exact ih.imp id (List.mem_cons_of_mem first)

theorem greatest_eq {lengths : List Decimal} {value : Decimal} (nonneg : 0 ≤ value)
    (each : ∀ length ∈ lengths, length ≤ value) (reached : value = 0 ∨ value ∈ lengths) :
    greatest lengths = value := by
  apply le_antisymm
  · rcases greatest_reached lengths with zero | member
    · exact zero ▸ nonneg
    · exact each _ member
  · rcases reached with rfl | member
    · exact greatest_nonneg lengths
    · exact le_greatest member

theorem greatest_append (before after : List Decimal) :
    greatest (before ++ after) = max (greatest before) (greatest after) := by
  induction before with
  | nil => exact (max_eq_right (greatest_nonneg after)).symm
  | cons first rest ih =>
      change max first (greatest (rest ++ after)) = max (max first (greatest rest)) (greatest after)
      rw [ih, max_assoc]

theorem greatest_flatMap {α : Type} (parts : List α) (lengths : α → List Decimal) :
    greatest (parts.flatMap lengths) =
      greatest (parts.map fun part => greatest (lengths part)) := by
  induction parts with
  | nil => rfl
  | cons part rest ih =>
      rw [List.flatMap_cons, greatest_append, ih]
      rfl

/-- The longest of some durations is the greatest of their values. -/
theorem longest_greatest {α : Type} {bindings : ScalarBindings} {parts : List α}
    {duration : α → Scalar} {length : α → Decimal}
    (each : ∀ part ∈ parts, Known bindings (duration part) (length part))
    (nonneg : ∀ part ∈ parts, 0 ≤ length part) :
    Known bindings (longest (parts.map duration)) (greatest (parts.map length)) := by
  rcases greatest_reached (parts.map length) with zero | member
  · rw [zero]
    apply longest_zero
    rw [List.forall_mem_map]
    intro part member
    have isZero :=
      le_antisymm (zero ▸ le_greatest (List.mem_map_of_mem member)) (nonneg part member)
    exact isZero ▸ each part member
  · apply longest_known
    · rw [List.forall_mem_map]
      exact fun part found => ⟨_, each part found, le_greatest (List.mem_map_of_mem found)⟩
    · obtain ⟨part, found, same⟩ := List.mem_map.1 member
      exact ⟨_, List.mem_map_of_mem found, same ▸ each part found⟩

def Modulation.Unlisted (modulation : Modulation) : Prop :=
  ∀ sites, modulation ≠ .scaled sites

theorem Modulation.Unlisted.same_iff {first second : Modulation} (unlisted : first.Unlisted) :
    first.same second = true ↔ first = second := by
  rw [Modulation.same_iff]
  constructor
  · rintro (⟨same, _⟩ | ⟨sites, _, listed, _⟩)
    · exact same
    · exact absurd listed (unlisted sites)
  · exact fun same => .inl ⟨same, unlisted⟩

theorem Modulation.Unlisted.same_right_iff {first second : Modulation}
    (unlisted : second.Unlisted) : first.same second = true ↔ first = second := by
  rw [Modulation.same_iff]
  constructor
  · rintro (⟨same, _⟩ | ⟨_, sites, _, listed, _⟩)
    · exact same
    · exact absurd listed (unlisted sites)
  · rintro rfl
    exact .inl ⟨rfl, unlisted⟩

theorem Modulation.Unlisted.each {modulation : Modulation} (unlisted : modulation.Unlisted)
    {good : Scalar → Prop} : modulation.EachWeight good := by
  cases modulation with
  | scaled sites => exact absurd rfl (unlisted sites)
  | _ => trivial

variable {bindings : ScalarBindings}

/-- A drive without listed sites, whose waveform is pieced together. -/
structure Drive.Ready (bindings : ScalarBindings) (drive : Drive) : Prop where
  unlisted : drive.target.Unlisted
  piecewise : Waveform.Piecewise bindings drive.waveform (drive.waveform.extent bindings)

theorem Drive.Ready.fixed {drive : Drive} (ready : drive.Ready bindings) : drive.Fixed :=
  ⟨ready.unlisted.each, ready.piecewise.fixed⟩

def Field.extent (bindings : ScalarBindings) (field : Field) : Decimal :=
  greatest (field.drives.map (·.waveform.extent bindings))

namespace PerField

/-- A plain pulse of drives that are ready, none of them twice. -/
structure Ready (bindings : ScalarBindings) (fields : PerField Field) : Prop where
  each : fields.EachDrive (Drive.Ready bindings)
  apart : fields.Apart

def extent (bindings : ScalarBindings) (fields : PerField Field) : Decimal :=
  greatest (fields.entries.map (·.2.extent bindings))

theorem extent_nonneg (fields : PerField Field) : 0 ≤ fields.extent bindings :=
  greatest_nonneg _

theorem drive_extent_le {fields : PerField Field} {name : FieldName} {field : Field}
    (found : fields.get? name = some field) {drive : Drive} (member : drive ∈ field.drives) :
    drive.waveform.extent bindings ≤ fields.extent bindings := by
  have inField : drive.waveform.extent bindings ≤ field.extent bindings :=
    le_greatest (List.mem_map.2 ⟨drive, member, rfl⟩)
  exact inField.trans
    (le_greatest (List.mem_map.2 ⟨(name, field), (mem_entries_iff _ _ _).2 found, rfl⟩))

/-- A plain pulse without drives lasts for no time, any other as long as one of its drives. -/
theorem extent_reached (bindings : ScalarBindings) (fields : PerField Field) :
    fields.extent bindings = 0 ∨ ∃ name field, fields.get? name = some field ∧
      ∃ drive ∈ field.drives, drive.waveform.extent bindings = fields.extent bindings := by
  rcases greatest_reached (fields.entries.map (·.2.extent bindings)) with zero | member
  · exact .inl zero
  obtain ⟨⟨name, field⟩, entry, same⟩ := List.mem_map.1 member
  have found := (mem_entries_iff _ _ _).1 entry
  rcases greatest_reached (field.drives.map (·.waveform.extent bindings)) with zero | reached
  · exact .inl (same.symm.trans zero)
  · obtain ⟨drive, driveMember, reaches⟩ := List.mem_map.1 reached
    exact .inr ⟨name, field, found, drive, driveMember, reaches.trans same⟩

theorem extent_undriven {fields : PerField Field} (undriven : ∀ name, ¬fields.Drives name) :
    fields.extent bindings = 0 := by
  rcases fields.extent_reached bindings with zero | ⟨name, field, found, drive, member, _⟩
  · exact zero
  · exact absurd ⟨field, found, List.ne_nil_of_mem member⟩ (undriven name)

/-- The extent of a plain pulse whose drives last equally long. -/
theorem extent_of_lasts {fields : PerField Field} {length : Decimal}
    (lasts : fields.Lasts bindings length) (driven : ∃ name, fields.Drives name) :
    fields.extent bindings = length := by
  have own : ∀ {name field}, fields.get? name = some field → ∀ drive ∈ field.drives,
      drive.waveform.extent bindings = length := fun found drive member =>
    Waveform.extent_of_lasts (lasts _ _ found drive member)
  obtain ⟨name, field, found, notEmpty⟩ := driven
  obtain ⟨drive, member⟩ := List.exists_mem_of_ne_nil _ notEmpty
  apply le_antisymm
  · rcases fields.extent_reached bindings with
      zero | ⟨_, _, otherFound, other, otherMember, reaches⟩
    · rw [zero, ← own found drive member]
      exact Waveform.duration_nonneg (own found drive member ▸ lasts name field found drive member)
    · rw [← reaches, own otherFound other otherMember]
  · exact own found drive member ▸ drive_extent_le found member

def waveform? (fields : PerField Field) (name : FieldName) (target : Modulation) :
    Option Waveform :=
  (fields.get? name).bind (·.lookup? target)

theorem waveform_some_iff {fields : PerField Field}
    (unlisted : fields.EachDrive (·.target.Unlisted)) (apart : fields.Apart) (name : FieldName)
    (target : Modulation) (waveform : Waveform) :
    fields.waveform? name target = some waveform ↔
      ∃ field, fields.get? name = some field ∧ ⟨target, waveform⟩ ∈ field.drives := by
  simp only [waveform?, Option.bind_eq_some_iff, Field.lookup?, Option.map_eq_some_iff]
  refine exists_congr fun field => and_congr_right fun found => ?_
  have exactly : ∀ drive ∈ field.drives, drive.target.same target = true ↔ drive.target = target :=
    fun drive member => (unlisted name field found drive member).same_iff
  constructor
  · rintro ⟨drive, isFirst, rfl⟩
    have member := List.mem_of_find?_eq_some isFirst
    have same : drive.target.same target = true := by simpa using List.find?_some isFirst
    obtain rfl := (unlisted name field found drive member).same_iff.1 same
    exact member
  · exact fun member => ⟨_, Field.find_of_apart (apart name field found) member, rfl⟩

theorem waveform_none_of_undriven {fields : PerField Field} {name : FieldName} {target : Modulation}
    (undriven : ∀ name, ¬fields.Drives name) :
    fields.waveform? name target = none := by
  rw [waveform?, Option.bind_eq_none_iff]
  intro field found
  have empty : field.drives = [] := by
    by_contra notEmpty
    exact undriven name ⟨field, found, notEmpty⟩
  rw [Field.lookup?, empty]
  rfl

end PerField

namespace PerField

variable [Natives]

/-- The course of a channel in a plain pulse: its waveform, then a rest until the pulse ends. -/
def course (bindings : ScalarBindings) (fields : PerField Field) (name : FieldName)
    (target : Modulation) : Stretch :=
  match fields.waveform? name target with
  | some waveform => waveform.stretch bindings name.target *
      rest (fields.extent bindings - waveform.extent bindings)
  | none => rest (fields.extent bindings)

variable {fields : PerField Field} {name : FieldName} {target : Modulation}

theorem course_of_some {waveform : Waveform}
    (found : fields.waveform? name target = some waveform) :
    fields.course bindings name target = waveform.stretch bindings name.target *
      rest (fields.extent bindings - waveform.extent bindings) := by
  rw [course, found]

theorem course_of_none (missing : fields.waveform? name target = none) :
    fields.course bindings name target = rest (fields.extent bindings) := by
  rw [course, missing]

theorem course_undriven (undriven : ∀ name, ¬fields.Drives name) :
    fields.course bindings name target = 1 := by
  rw [course_of_none (waveform_none_of_undriven undriven), extent_undriven undriven, rest_zero]

end PerField

namespace Pulse

def Ready (bindings : ScalarBindings) (pulse : Pulse) : Prop :=
  pulse.Each (PerField.Ready bindings) fun _ => False

def extent (bindings : ScalarBindings) (pulse : Pulse) : Decimal :=
  (pulse.plains.map (PerField.extent bindings)).sum

/-- The course of a channel in the plain pulses of a pulse, one after the other. -/
def course [Natives] (bindings : ScalarBindings) (pulse : Pulse) (name : FieldName)
    (target : Modulation) : Stretch :=
  (pulse.plains.map fun fields => fields.course bindings name target).prod

theorem extent_nonneg (pulse : Pulse) : 0 ≤ pulse.extent bindings :=
  List.sum_nonneg (List.forall_mem_map.2 fun fields _ => fields.extent_nonneg)

end Pulse

namespace PerCoupling

def extent (bindings : ScalarBindings) (pulses : PerCoupling Pulse) : Decimal :=
  greatest (pulses.entries.map (·.2.extent bindings))

/-- The course of a channel in a plain sequence: its pulse, then a rest until the others end. -/
def course [Natives] (bindings : ScalarBindings) (pulses : PerCoupling Pulse) (channel : Channel) :
    Stretch :=
  (Padding.givenPulse pulses channel.coupling).course bindings channel.field channel.target *
    rest (pulses.extent bindings - (Padding.givenPulse pulses channel.coupling).extent bindings)

theorem extent_nonneg (pulses : PerCoupling Pulse) : 0 ≤ pulses.extent bindings :=
  greatest_nonneg _

end PerCoupling

namespace Sequence

def Ready (bindings : ScalarBindings) (sequence : Sequence) : Prop :=
  sequence.Each (PerCoupling.EachPulse (Pulse.Ready bindings)) fun _ => False

def extent (bindings : ScalarBindings) (sequence : Sequence) : Decimal :=
  (sequence.plains.map (PerCoupling.extent bindings)).sum

/-- The course of a channel in the plain sequences of a sequence, one after the other. -/
def course [Natives] (bindings : ScalarBindings) (sequence : Sequence) (channel : Channel) :
    Stretch :=
  (sequence.plains.map fun pulses => pulses.course bindings channel).prod

theorem extent_nonneg (sequence : Sequence) : 0 ≤ sequence.extent bindings :=
  List.sum_nonneg (List.forall_mem_map.2 fun pulses _ => pulses.extent_nonneg)

end Sequence

namespace PerField

theorem Ready.duration {fields : PerField Field} (ready : fields.Ready bindings) :
    Known bindings (Pulse.plainDuration fields) (fields.extent bindings) := by
  refine longest_greatest (fun entry member => ?_) fun entry _ => greatest_nonneg _
  have found := (mem_entries_iff _ _ _).1 member
  refine longest_greatest (fun drive driveMember => ?_) fun drive driveMember => ?_
  · exact (ready.each _ _ found drive driveMember).piecewise.length_counts.known
  · exact (ready.each _ _ found drive driveMember).piecewise.nonneg

end PerField

namespace Pulse

theorem Ready.fixed {pulse : Pulse} (ready : pulse.Ready bindings) : pulse.Fixed :=
  Each.mono pulse ready (fun _ fields => fields.each.mono fun _ drive => drive.fixed)
    fun _ impossible => impossible.elim

theorem extent_plain (fields : PerField Field) :
    (plain fields).extent bindings = fields.extent bindings := by
  rw [extent, plains, List.map_singleton, List.sum_singleton]

theorem course_plain [Natives] (fields : PerField Field) (name : FieldName) (target : Modulation) :
    (plain fields).course bindings name target = fields.course bindings name target := by
  rw [course, plains, List.map_singleton, List.prod_singleton]

theorem extent_append (parts : List Pulse) :
    (append parts).extent bindings = (parts.map (extent bindings)).sum := by
  rw [extent, plains, plains_all_eq, List.flatMap_def, List.map_flatten, List.sum_flatten,
    List.map_map, List.map_map]
  rfl

theorem extent_undriven {pulse : Pulse} (undriven : pulse.Undriven) :
    pulse.extent bindings = 0 := by
  apply List.sum_eq_zero
  rw [List.forall_mem_map]
  exact fun fields member => PerField.extent_undriven (undriven fields member)

theorem course_append [Natives] (parts : List Pulse) (name : FieldName) (target : Modulation) :
    (append parts).course bindings name target =
      (parts.map fun part => part.course bindings name target).prod := by
  rw [course, plains, plains_all_eq, List.flatMap_def, List.map_flatten, List.prod_flatten,
    List.map_map, List.map_map]
  rfl

theorem Ready.duration {pulse : Pulse} (ready : pulse.Ready bindings) :
    Counts bindings pulse.symbolicDuration (pulse.extent bindings) := by
  refine ⟨pulse.symbolic_duration_each Scalar.fixed_family ready.fixed, ?_⟩
  unfold Ready at ready
  induction pulse using Pulse.parts_induction with
  | plain fields =>
      rw [extent_plain]
      exact (PerField.Ready.duration ready).evaluates
  | append parts ih =>
      rw [each_append_iff] at ready
      refine (append_duration_ok_iff _ _).2 ⟨parts.map (extent bindings), ?_, extent_append parts⟩
      rw [List.forall₂_map_right_iff, List.forall₂_same]
      exact fun part member => ih part member (ready part member)
  | slice inner interval _ => exact ready.2.elim
  | named name inner ih => exact ih ready

end Pulse

namespace PerCoupling

theorem extent_le {pulses : PerCoupling Pulse} {coupling : Coupling} {pulse : Pulse}
    (found : pulses.get? coupling = some pulse) :
    pulse.extent bindings ≤ pulses.extent bindings :=
  le_greatest (List.mem_map.2 ⟨(coupling, pulse), (mem_entries_iff _ _ _).2 found, rfl⟩)

theorem extent_reached (bindings : ScalarBindings) (pulses : PerCoupling Pulse) :
    pulses.extent bindings = 0 ∨ ∃ coupling pulse, pulses.get? coupling = some pulse ∧
      pulse.extent bindings = pulses.extent bindings := by
  rcases greatest_reached (pulses.entries.map (·.2.extent bindings)) with zero | member
  · exact .inl zero
  · obtain ⟨⟨coupling, pulse⟩, entry, same⟩ := List.mem_map.1 member
    exact .inr ⟨coupling, pulse, (mem_entries_iff _ _ _).1 entry, same⟩

theorem given_pulse_ready {pulses : PerCoupling Pulse}
    (ready : pulses.EachPulse (Pulse.Ready bindings)) (coupling : Coupling) :
    (Padding.givenPulse pulses coupling).Ready bindings := by
  unfold Padding.givenPulse
  cases found : pulses.get? coupling with
  | none => exact ⟨PerField.each_drive_empty, fun _ _ isField => by simp at isField⟩
  | some pulse => exact ready coupling pulse found

theorem given_pulse_extent_le (pulses : PerCoupling Pulse) (coupling : Coupling) :
    (Padding.givenPulse pulses coupling).extent bindings ≤ pulses.extent bindings := by
  unfold Padding.givenPulse
  cases found : pulses.get? coupling with
  | none =>
      rw [Option.getD_none, Pulse.extent_plain, PerField.extent_undriven PerField.not_drives_empty]
      exact pulses.extent_nonneg
  | some pulse => exact extent_le found

end PerCoupling

namespace Sequence

theorem Ready.fixed {sequence : Sequence} (ready : sequence.Ready bindings) : sequence.Fixed :=
  Each.mono sequence ready
    (fun _ pulses coupling pulse found => (pulses coupling pulse found).fixed)
    fun _ impossible => impossible.elim

theorem extent_plain (pulses : PerCoupling Pulse) :
    (plain pulses).extent bindings = pulses.extent bindings := by
  rw [extent, plains, List.map_singleton, List.sum_singleton]

theorem course_plain [Natives] (pulses : PerCoupling Pulse) (channel : Channel) :
    (plain pulses).course bindings channel = pulses.course bindings channel := by
  rw [course, plains, List.map_singleton, List.prod_singleton]

theorem extent_append (parts : List Sequence) :
    (append parts).extent bindings = (parts.map (extent bindings)).sum := by
  rw [extent, plains, plains_all_eq, List.flatMap_def, List.map_flatten, List.sum_flatten,
    List.map_map, List.map_map]
  rfl

theorem course_append [Natives] (parts : List Sequence) (channel : Channel) :
    (append parts).course bindings channel =
      (parts.map fun part => part.course bindings channel).prod := by
  rw [course, plains, plains_all_eq, List.flatMap_def, List.map_flatten, List.prod_flatten,
    List.map_map, List.map_map]
  rfl

theorem Ready.duration {sequence : Sequence} (ready : sequence.Ready bindings) :
    Counts bindings sequence.symbolicDuration (sequence.extent bindings) := by
  refine ⟨sequence.symbolic_duration_each Scalar.fixed_family ready.fixed, ?_⟩
  unfold Ready at ready
  induction sequence using Sequence.parts_induction with
  | plain pulses =>
      rw [extent_plain]
      refine (longest_greatest (fun entry member => ?_)
        fun entry _ => entry.2.extent_nonneg).evaluates
      exact (ready _ _ ((PerCoupling.mem_entries_iff _ _ _).1 member)).duration.known
  | append parts ih =>
      rw [each_append_iff] at ready
      refine (append_duration_ok_iff _ _).2 ⟨parts.map (extent bindings), ?_, extent_append parts⟩
      rw [List.forall₂_map_right_iff, List.forall₂_same]
      exact fun part member => ih part member (ready part member)
  | slice inner interval _ => exact ready.2.elim
  | named name inner ih => exact ih ready

end Sequence

theorem Stretch.prod_stays_one {stretches : List Stretch}
    (each : ∀ stretch ∈ stretches, Stays stretch 1) : Stays stretches.prod 1 := by
  induction stretches with
  | nil => exact .refl 1
  | cons first others ih =>
      obtain ⟨firstStays, othersStay⟩ := List.forall_mem_cons.1 each
      rw [List.prod_cons, ← one_mul (1 : Stretch)]
      exact firstStays.mul (ih othersStay)

theorem empty_of_sum {α : Type} {parts : List α} {extent : α → Decimal}
    (nonneg : ∀ part, 0 ≤ extent part) (empty : (parts.map extent).sum = 0) :
    ∀ part ∈ parts, extent part = 0 := fun _ member =>
  List.all_zero_of_le_zero_le_of_sum_eq_zero (List.forall_mem_map.2 fun part _ => nonneg part) empty
    (List.mem_map_of_mem member)

namespace PerField

variable {fields : PerField Field}

theorem Ready.driven (ready : fields.Ready bindings) {name : FieldName} {target : Modulation}
    {waveform : Waveform} (found : fields.waveform? name target = some waveform) :
    Waveform.Piecewise bindings waveform (waveform.extent bindings) ∧
      waveform.extent bindings ≤ fields.extent bindings := by
  obtain ⟨field, fieldFound, member⟩ := (waveform_some_iff
    (ready.each.mono fun _ drive => drive.unlisted) ready.apart _ _ _).1 found
  have short : (Drive.mk target waveform).waveform.extent bindings ≤ fields.extent bindings :=
    drive_extent_le fieldFound member
  exact ⟨(ready.each _ _ fieldFound _ member).piecewise, short⟩

theorem Ready.course_of_empty [Natives] (ready : fields.Ready bindings)
    (empty : fields.extent bindings = 0) (name : FieldName) (target : Modulation) :
    Stays (fields.course bindings name target) 1 := by
  cases found : fields.waveform? name target with
  | none =>
      rw [course_of_none found, empty]
      exact .refl 1
  | some waveform =>
      obtain ⟨piecewise, short⟩ := ready.driven found
      have isEmpty := le_antisymm (empty ▸ short) piecewise.nonneg
      rw [isEmpty] at piecewise
      rw [course_of_some found, empty, isEmpty, sub_zero, rest_zero, mul_one]
      exact piecewise.stays_of_empty name.target

end PerField

theorem Pulse.Ready.course_of_empty [Natives] {pulse : Pulse} (ready : pulse.Ready bindings)
    (empty : pulse.extent bindings = 0) (name : FieldName) (target : Modulation) :
    Stays (pulse.course bindings name target) 1 := by
  have each := empty_of_sum PerField.extent_nonneg empty
  refine prod_stays_one (List.forall_mem_map.2 fun fields member => ?_)
  exact (Pulse.Each.plains pulse ready fields member).course_of_empty (each fields member) name
    target

theorem PerCoupling.course_of_empty [Natives] {pulses : PerCoupling Pulse}
    (ready : pulses.EachPulse (Pulse.Ready bindings)) (empty : pulses.extent bindings = 0)
    (channel : Channel) : Stays (pulses.course bindings channel) 1 := by
  have isEmpty := le_antisymm (empty ▸ pulses.given_pulse_extent_le channel.coupling)
    (Padding.givenPulse pulses channel.coupling).extent_nonneg
  rw [course, empty, isEmpty, sub_zero, rest_zero, mul_one]
  exact (given_pulse_ready ready channel.coupling).course_of_empty isEmpty _ _

theorem Sequence.Ready.course_of_empty [Natives] {sequence : Sequence}
    (ready : sequence.Ready bindings) (empty : sequence.extent bindings = 0) (channel : Channel) :
    Stays (sequence.course bindings channel) 1 := by
  have each := empty_of_sum PerCoupling.extent_nonneg empty
  refine prod_stays_one (List.forall_mem_map.2 fun pulses member => ?_)
  exact PerCoupling.course_of_empty (Sequence.Each.plains sequence ready pulses member)
    (each pulses member) channel

section

variable {α ι : Type}

/-- The result is ready and lasts as long, and every channel takes the same course. -/
structure Retains (Ready : α → Prop) (extent : α → Decimal) (course : α → ι → Stretch)
    (given result : α) : Prop where
  ready : Ready result
  lasts : extent result = extent given
  same : ∀ channel, course result channel = course given channel

/-- The result is ready and lasts as long, and every channel takes the same course unless that was
broken. -/
structure Mends (Ready : α → Prop) (extent : α → Decimal) (course : α → ι → Stretch)
    (given result : α) : Prop where
  ready : Ready result
  lasts : extent result = extent given
  stays : ∀ channel, Stays (course given channel) (course result channel)

/-- Parts are put one after the other. What takes no time is not noticed there. -/
structure Appends (append : List α → α) (Ready : α → Prop) (extent : α → Decimal)
    (course : α → ι → Stretch) : Prop where
  ready_iff : ∀ parts, Ready (append parts) ↔ ∀ part ∈ parts, Ready part
  lasts : ∀ parts, extent (append parts) = (parts.map extent).sum
  follows : ∀ parts channel, course (append parts) channel =
    (parts.map fun part => course part channel).prod
  empty : ∀ part, Ready part → extent part = 0 → ∀ channel, Stays (course part channel) 1

variable {append : List α → α} {Ready : α → Prop} {extent : α → Decimal} {course : α → ι → Stretch}
  {given between result : α} {parts results : List α}

theorem Retains.mends (retains : Retains Ready extent course given result) :
    Mends Ready extent course given result :=
  ⟨retains.ready, retains.lasts, fun channel => stays_of_eq (retains.same channel)⟩

theorem Mends.trans (first : Mends Ready extent course given between)
    (second : Mends Ready extent course between result) : Mends Ready extent course given result :=
  ⟨second.ready, second.lasts.trans first.lasts,
    fun channel => (first.stays channel).trans (second.stays channel)⟩

theorem Appends.retains (appends : Appends append Ready extent course)
    (each : List.Forall₂ (Retains Ready extent course) parts results) :
    Retains Ready extent course (append parts) (append results) := by
  refine ⟨(appends.ready_iff _).2 fun part member => ?_, ?_, fun channel => ?_⟩
  · obtain ⟨_, _, retains⟩ := Outcome.source_of_mem each member
    exact retains.ready
  · rw [appends.lasts, appends.lasts,
      Outcome.map_eq_of_related each fun _ _ retains => retains.lasts]
  · rw [appends.follows, appends.follows,
      Outcome.map_eq_of_related each fun _ _ retains => retains.same channel]

theorem Appends.mends (appends : Appends append Ready extent course)
    (each : List.Forall₂ (Mends Ready extent course) parts results) :
    Mends Ready extent course (append parts) (append results) := by
  refine ⟨(appends.ready_iff _).2 fun part member => ?_, ?_, fun channel => ?_⟩
  · obtain ⟨_, _, mends⟩ := Outcome.source_of_mem each member
    exact mends.ready
  · rw [appends.lasts, appends.lasts,
      Outcome.map_eq_of_related each fun _ _ mends => mends.lasts]
  · rw [appends.follows, appends.follows]
    refine Stays.prod (List.forall₂_map_left_iff.2 (List.forall₂_map_right_iff.2 ?_))
    exact each.imp fun _ _ mends => mends.stays channel

end

variable [Natives]

theorem Pulse.appends : Appends Pulse.append (Pulse.Ready bindings) (Pulse.extent bindings)
    fun pulse (channel : FieldName × Modulation) =>
      pulse.course bindings channel.1 channel.2 where
  ready_iff _ := Pulse.each_append_iff _
  lasts := Pulse.extent_append
  follows parts channel := Pulse.course_append parts channel.1 channel.2
  empty _ ready isEmpty channel := Pulse.Ready.course_of_empty ready isEmpty channel.1 channel.2

theorem Sequence.appends : Appends Sequence.append (Sequence.Ready bindings)
    (Sequence.extent bindings) (Sequence.course bindings) where
  ready_iff _ := Sequence.each_append_iff _
  lasts := Sequence.extent_append
  follows := Sequence.course_append
  empty _ ready isEmpty := Sequence.Ready.course_of_empty ready isEmpty

end Analog
