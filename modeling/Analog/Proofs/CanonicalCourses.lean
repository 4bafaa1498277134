import Analog.Proofs.CanonicalStretches
import Analog.Proofs.ChannelCourses

/-!
# Courses of canonical sequences

Drives that do not list their sites are not merged, so simplification takes them one by one. It
leaves out parts that take no time, which other parts do not notice. Therefore the canonical form
of a sequence of drives that are ready lasts as long, and every channel takes the same course
unless that was broken.
-/

set_option autoImplicit false

namespace Analog

open Scalar Stretch

variable [Natives] {bindings : ScalarBindings}

/-- A drive in place of another, of the same modulation. -/
structure Drive.Mends (bindings : ScalarBindings) (given result : Drive) : Prop where
  target : result.target = given.target
  traces : Canonical.Traces bindings (given.waveform.extent bindings)
    (given.waveform.stretch bindings ·) result.waveform

abbrev PerField.Mends (bindings : ScalarBindings) : PerField Field → PerField Field → Prop :=
  Analog.Mends (Ready bindings) (extent bindings)
    fun fields (channel : FieldName × Modulation) => fields.course bindings channel.1 channel.2

abbrev Pulse.Mends (bindings : ScalarBindings) : Pulse → Pulse → Prop :=
  Analog.Mends (Ready bindings) (extent bindings)
    fun pulse (channel : FieldName × Modulation) => pulse.course bindings channel.1 channel.2

abbrev Sequence.Mends (bindings : ScalarBindings) : Sequence → Sequence → Prop :=
  Analog.Mends (Ready bindings) (extent bindings) (course bindings)

namespace Canonical

variable {relation : Waveform → Waveform → Prop}

section

variable {α : Type} {extent : α → Decimal} {parts kept : List α}

/-- All parts, or all but some that take no time. -/
inductive Retained (extent : α → Decimal) : List α → List α → Prop
  | nil : Retained extent [] []
  | keep {part : α} {rest kept : List α} (retained : Retained extent rest kept) :
      Retained extent (part :: rest) (part :: kept)
  | drop {part : α} {rest kept : List α} (empty : extent part = 0)
      (retained : Retained extent rest kept) : Retained extent (part :: rest) kept

omit [Natives] in
theorem Retained.subset (retained : Retained extent parts kept) : ∀ part ∈ kept, part ∈ parts := by
  induction retained with
  | nil => simp
  | keep _ ih => exact fun other => by simpa using Or.imp id (ih other)
  | drop _ _ ih => exact fun other member => List.mem_cons_of_mem _ (ih other member)

omit [Natives] in
theorem Retained.sum (retained : Retained extent parts kept) :
    (kept.map extent).sum = (parts.map extent).sum := by
  induction retained with
  | nil => rfl
  | keep _ ih => rw [List.map_cons, List.map_cons, List.sum_cons, List.sum_cons, ih]
  | drop empty _ ih => rw [List.map_cons, List.sum_cons, empty, zero_add, ih]

omit [Natives] in
theorem Retained.stays {course : α → Stretch} (retained : Retained extent parts kept)
    (ofEmpty : ∀ part ∈ parts, extent part = 0 → Stays (course part) 1) :
    Stays (parts.map course).prod (kept.map course).prod := by
  induction retained with
  | nil => exact .refl 1
  | keep _ ih =>
      rw [List.map_cons, List.map_cons, List.prod_cons, List.prod_cons]
      exact (Stays.refl _).mul
        (ih fun other member => ofEmpty other (List.mem_cons_of_mem _ member))
  | drop empty _ ih =>
      have dropped := (ofEmpty _ List.mem_cons_self empty).mul
        (ih fun other member => ofEmpty other (List.mem_cons_of_mem _ member))
      rwa [one_mul] at dropped

end

end Canonical

namespace PerField

theorem Ready.mends {fields result : PerField Field} (ready : fields.Ready bindings)
    (related : ∀ name, Option.Rel (fun given made : Field => Field.Apart made.drives ∧
      List.Forall₂ (Drive.Mends bindings) given.drives made.drives)
        (fields.get? name) (result.get? name)) :
    fields.Mends bindings result := by
  have source : ∀ name made, result.get? name = some made → ∃ given,
      fields.get? name = some given ∧ Field.Apart made.drives ∧
        List.Forall₂ (Drive.Mends bindings) given.drives made.drives := by
    intro name made found
    have rel := related name
    rw [found] at rel
    generalize fields.get? name = before at rel
    cases rel with
    | some both => exact ⟨_, rfl, both⟩
  have target : ∀ name given, fields.get? name = some given → ∃ made,
      result.get? name = some made ∧ Field.Apart made.drives ∧
        List.Forall₂ (Drive.Mends bindings) given.drives made.drives := by
    intro name given found
    have rel := related name
    rw [found] at rel
    generalize result.get? name = after at rel
    cases rel with
    | some both => exact ⟨_, rfl, both⟩
  have sameExtents : ∀ {given made : Field},
      List.Forall₂ (Drive.Mends bindings) given.drives made.drives →
        made.extent bindings = given.extent bindings := fun mends =>
    congrArg greatest
      (Outcome.map_eq_of_related mends fun _ _ both => both.traces.piecewise.extent_eq)
  have resultReady : result.Ready bindings := by
    refine ⟨fun name made found drive member => ?_, fun name made found => ?_⟩
    · obtain ⟨given, givenFound, _, mends⟩ := source name made found
      obtain ⟨givenDrive, givenMember, both⟩ := Outcome.source_of_mem mends member
      exact ⟨both.target ▸ (ready.each name given givenFound givenDrive givenMember).unlisted,
        both.traces.piecewise.own⟩
    · obtain ⟨_, _, apart, _⟩ := source name made found
      exact apart
  have sameExtent : result.extent bindings = fields.extent bindings := by
    refine greatest_eq fields.extent_nonneg ?_ ((greatest_reached _).imp id fun member => ?_)
    · rw [List.forall_mem_map]
      rintro ⟨name, made⟩ member
      obtain ⟨given, givenFound, _, mends⟩ := source name made ((mem_entries_iff _ _ _).1 member)
      rw [sameExtents mends]
      exact le_greatest (List.mem_map.2 ⟨(name, given), (mem_entries_iff _ _ _).2 givenFound, rfl⟩)
    · obtain ⟨⟨name, given⟩, entry, reaches⟩ := List.mem_map.1 member
      obtain ⟨made, madeFound, _, mends⟩ := target name given ((mem_entries_iff _ _ _).1 entry)
      exact List.mem_map.2 ⟨(name, made), (mem_entries_iff _ _ _).2 madeFound,
        (sameExtents mends).trans reaches⟩
  have given_iff := waveform_some_iff (ready.each.mono fun _ drive => drive.unlisted) ready.apart
  have made_iff := waveform_some_iff (resultReady.each.mono fun _ drive => drive.unlisted)
    resultReady.apart
  refine ⟨resultReady, sameExtent, fun ⟨name, modulation⟩ => ?_⟩
  dsimp only
  cases found : fields.waveform? name modulation with
  | some waveform =>
      obtain ⟨given, givenFound, member⟩ := (given_iff _ _ _).1 found
      obtain ⟨made, madeFound, _, mends⟩ := target name given givenFound
      obtain ⟨⟨_, mended⟩, madeMember, rfl, traces⟩ := Outcome.target_of_mem mends member
      rw [course_of_some found, course_of_some ((made_iff _ _ _).2 ⟨made, madeFound, madeMember⟩),
        sameExtent, traces.piecewise.extent_eq]
      exact (traces.stays name.target).mul (.refl _)
  | none =>
      have missing : result.waveform? name modulation = none := by
        rw [Option.eq_none_iff_forall_ne_some]
        intro waveform isMade
        obtain ⟨made, madeFound, member⟩ := (made_iff _ _ _).1 isMade
        obtain ⟨given, givenFound, _, mends⟩ := source name made madeFound
        obtain ⟨⟨_, earlier⟩, givenMember, rfl, _⟩ := Outcome.source_of_mem mends member
        cases found.symm.trans ((given_iff _ _ _).2 ⟨given, givenFound, givenMember⟩)
      rw [course_of_none found, course_of_none missing, sameExtent]
      exact .refl _

end PerField

namespace Canonical

end Canonical

section

variable {α ι : Type} {append : List α → α} {Ready : α → Prop} {extent : α → Decimal}
  {course : α → ι → Stretch} (appends : Appends append Ready extent course) {parts : List α}
include appends

end

namespace Canonical

end Canonical

namespace PerCoupling

abbrev Mends (bindings : ScalarBindings) : PerCoupling Pulse → PerCoupling Pulse → Prop :=
  Analog.Mends (EachPulse (Pulse.Ready bindings)) (extent bindings) (course bindings)

end PerCoupling

namespace Canonical

end Canonical

end Analog
