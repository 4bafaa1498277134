import Analog.Proofs.ClosedScalars
import Analog.Proofs.PiecedWaveforms

/-!
# Stretches of canonical waveforms

Simplification keeps what other parts notice of a waveform that is pieced together: how it
starts and ends, and whether it lasts at all. It may only mend what was broken.
-/

set_option autoImplicit false

namespace Analog.Stretch

end Analog.Stretch

namespace Analog.Canonical

open Stretch Waveform

section

variable {bindings : ScalarBindings} {relation : Waveform → Waveform → Prop}

theorem counts_known {operands : List Scalar} {values : List Decimal}
    (count : List.Forall₂ (Scalar.Counts bindings) operands values) :
    List.Forall₂ (Scalar.Known bindings) operands values :=
  count.imp fun _ _ counts => counts.known

end

section

variable [Natives] {bindings : ScalarBindings} {relation : Waveform → Waveform → Prop}

/-- A waveform that lasts for a time, with the stretch that there was before unless that was
broken. -/
structure Traces (bindings : ScalarBindings) (length : Decimal) (course : Target → Stretch)
    (result : Waveform) : Prop where
  piecewise : Piecewise bindings result length
  stays : ∀ target, Stays (course target) (result.stretch bindings target)

variable {length : Decimal} {course earlier : Target → Stretch} {given result : Waveform}

theorem Traces.after (traces : Traces bindings length course result)
    (stays : ∀ target, Stays (earlier target) (course target)) :
    Traces bindings length earlier result :=
  ⟨traces.piecewise, fun target => (stays target).trans (traces.stays target)⟩

/-- Parts that last for a time altogether, with the stretch that there was before unless that was
broken. -/
structure Lined (bindings : ScalarBindings) (length : Decimal) (course : Target → Stretch)
    (parts : List Waveform) : Prop where
  each : ∀ part ∈ parts, Piecewise bindings part (part.extent bindings)
  lasts : (parts.map (extent bindings)).sum = length
  stays : ∀ target, Stays (course target) (parts.map (stretch bindings target)).prod

variable {parts others : List Waveform} {extra : Decimal} {further : Target → Stretch}

theorem Traces.lined (traces : Traces bindings length course result) :
    Lined bindings length course [result] := by
  have sameLength := extent_of_lasts traces.piecewise.lasts
  refine ⟨List.forall_mem_singleton.2 (sameLength ▸ traces.piecewise), ?_, fun target => ?_⟩
  · rw [List.map_singleton, List.sum_singleton, sameLength]
  · rw [List.map_singleton, List.prod_singleton]
    exact traces.stays target

theorem Lined.append (lined : Lined bindings length course parts)
    (later : Lined bindings extra further others) :
    Lined bindings (length + extra) (fun target => course target * further target)
      (parts ++ others) := by
  refine ⟨List.forall_mem_append.2 ⟨lined.each, later.each⟩, ?_, fun target => ?_⟩
  · rw [List.map_append, List.sum_append, lined.lasts, later.lasts]
  · rw [List.map_append, List.prod_append]
    exact (lined.stays target).mul (later.stays target)

theorem Lined.after (lined : Lined bindings length course parts)
    (stays : ∀ target, Stays (earlier target) (course target)) :
    Lined bindings length earlier parts :=
  ⟨lined.each, lined.lasts, fun target => (stays target).trans (lined.stays target)⟩

/-- Equal waveforms last equally long, and others notice the same of them. -/
theorem stretch_of_same {other : Waveform} (piecewise : Piecewise bindings given length)
    (otherPiecewise : Piecewise bindings other extra) (equal : given.same other = true) :
    length = extra ∧ ∀ target, given.stretch bindings target = other.stretch bindings target := by
  induction piecewise generalizing other extra with
  | constant valueCounts durationCounts nonneg =>
      cases otherPiecewise with
      | constant valueCounts' durationCounts' nonneg' =>
          rw [Waveform.same, Bool.and_eq_true] at equal
          obtain rfl := valueCounts.of_same valueCounts' equal.1
          obtain rfl := durationCounts.of_same durationCounts' equal.2
          refine ⟨rfl, fun target => ?_⟩
          rw [constant_stretch durationCounts.evaluates nonneg valueCounts.evaluates,
            constant_stretch durationCounts'.evaluates nonneg valueCounts'.evaluates]
      | _ => exact absurd equal (by simp [Waveform.same])
  | ramp startCounts stopCounts durationCounts nonneg =>
      cases otherPiecewise with
      | ramp startCounts' stopCounts' durationCounts' nonneg' =>
          rw [Waveform.same, Bool.and_eq_true, Bool.and_eq_true] at equal
          obtain rfl := startCounts.of_same startCounts' equal.1.1
          obtain rfl := stopCounts.of_same stopCounts' equal.1.2
          obtain rfl := durationCounts.of_same durationCounts' equal.2
          refine ⟨rfl, fun target => ?_⟩
          rw [ramp_stretch durationCounts.evaluates nonneg startCounts.evaluates
              stopCounts.evaluates,
            ramp_stretch durationCounts'.evaluates nonneg startCounts'.evaluates
              stopCounts'.evaluates]
      | _ => exact absurd equal (by simp [Waveform.same])
  | poly count durationCounts nonneg =>
      cases otherPiecewise with
      | poly count' durationCounts' nonneg' =>
          rw [Waveform.same, Bool.and_eq_true] at equal
          obtain rfl := values_of_same equal.1 (counts_known count) (counts_known count')
          obtain rfl := durationCounts.of_same durationCounts' equal.2
          refine ⟨rfl, fun target => ?_⟩
          rw [poly_stretch durationCounts.evaluates nonneg (Scalar.evals_of_count count),
            poly_stretch durationCounts'.evaluates nonneg (Scalar.evals_of_count count')]
      | _ => exact absurd equal (by simp [Waveform.same])
  | negative inner ih =>
      cases otherPiecewise with
      | negative inner' =>
          obtain ⟨lasts, alike⟩ := ih inner' equal
          refine ⟨lasts, fun target => ?_⟩
          rw [negative_stretch inner.pieced, negative_stretch inner'.pieced, alike]
      | _ => exact absurd equal (by simp [Waveform.same])
  | scale factorCounts inner ih =>
      cases otherPiecewise with
      | scale factorCounts' inner' =>
          rw [Waveform.same, Bool.and_eq_true] at equal
          obtain rfl := factorCounts.of_same factorCounts' equal.1
          obtain ⟨lasts, alike⟩ := ih inner' equal.2
          refine ⟨lasts, fun target => ?_⟩
          rw [scale_stretch factorCounts.evaluates inner.pieced,
            scale_stretch factorCounts'.evaluates inner'.pieced, alike]
      | _ => exact absurd equal (by simp [Waveform.same])
  | record inner ih =>
      cases otherPiecewise with
      | record inner' =>
          rw [Waveform.same, Bool.and_eq_true] at equal
          obtain ⟨lasts, alike⟩ := ih inner' equal.2
          refine ⟨lasts, fun target => ?_⟩
          rw [record_stretch, record_stretch, alike]
      | _ => exact absurd equal (by simp [Waveform.same])
  | @append parts lengths filled each ih =>
      cases otherPiecewise with
      | @append parts' lengths' filled' each' =>
          rw [Waveform.same, same_all_iff] at equal
          have alike := Outcome.related_of_members equal fun part member part' member' same =>
            ih part member (each' part' member') same
          refine ⟨(congrArg List.sum (Outcome.map_eq_of_related alike fun _ _ both =>
            both.1.symm)).symm, fun target => ?_⟩
          have wholePiecewise := Piecewise.append filled each
          have wholePiecewise' := Piecewise.append filled' each'
          rw [append_stretch wholePiecewise.pieced, append_stretch wholePiecewise'.pieced,
            Outcome.map_eq_of_related alike fun _ _ both => (both.2 target).symm]
      | _ => exact absurd equal (by simp [Waveform.same])

/-- The result lasts as long as the given waveform, and others notice the same of it. -/
def Retraced (bindings : ScalarBindings) (given result : Waveform) : Prop :=
  ∃ length, Piecewise bindings given length ∧
    Traces bindings length (given.stretch bindings ·) result

theorem Retraced.traces {other : Waveform} (retraced : Retraced bindings given result)
    (piecewise : Piecewise bindings other length) (equal : given.same other = true) :
    Traces bindings length (other.stretch bindings ·) result := by
  obtain ⟨_, givenPiecewise, traces⟩ := retraced
  obtain ⟨rfl, alike⟩ := stretch_of_same givenPiecewise piecewise equal
  exact traces.after fun target => stays_of_eq (alike target)

end

end Analog.Canonical
