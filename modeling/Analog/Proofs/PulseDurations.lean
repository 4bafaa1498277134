import Analog.Proofs.FixedForms

/-!
# Durations of pulses

The duration of a pulse or sequence is known as an expression only. It is tidy, or fixed,
where the scalars inside are. If all drives of a plain pulse last equally long, the pulse lasts as long
as they do, and without drives it lasts for no time.
-/

set_option autoImplicit false

namespace Analog

open Scalar

variable {bindings : ScalarBindings}

theorem longest_each {good : Scalar → Prop} (family : Family good) {durations : List Scalar}
    (each : ∀ duration ∈ durations, good duration) : good (longest durations) := by
  unfold longest
  split
  · exact family.literal 0
  · exact each _ (by simp)
  · exact family.maximum _ each

/-- The longest of some durations is the greatest of their values. -/
theorem longest_known {durations : List Scalar} {value : Decimal}
    (each : ∀ duration ∈ durations, ∃ number, Known bindings duration number ∧ number ≤ value)
    (reached : ∃ duration ∈ durations, Known bindings duration value) :
    Known bindings (longest durations) value := by
  unfold longest
  split
  case h_1 =>
      obtain ⟨_, member, _⟩ := reached
      exact absurd member List.not_mem_nil
  case h_2 duration =>
      obtain ⟨_, member, known⟩ := reached
      rw [List.mem_singleton.1 member] at known
      exact known
  case h_3 =>
      have tidied : ∀ duration ∈ durations, duration.tidy = true := fun duration member => by
        obtain ⟨_, known, _⟩ := each duration member
        exact known.tidied
      have chosen : Chosen (· ≥ ·) bindings durations value := by
        constructor
        · intro duration member
          obtain ⟨number, known, ordered⟩ := each duration member
          exact ⟨number, known.evaluates, ordered⟩
        · obtain ⟨duration, member, known⟩ := reached
          exact ⟨duration, member, known.evaluates⟩
      exact ⟨maximum_tidy tidied, (eval_max_ok_iff _ _).2 (chosen_unique tidied chosen)⟩

theorem longest_zero {durations : List Scalar}
    (each : ∀ duration ∈ durations, Known bindings duration 0) :
    Known bindings (longest durations) 0 := by
  cases durations with
  | nil => exact ⟨rfl, rfl⟩
  | cons first rest =>
      exact longest_known (fun duration member => ⟨0, each duration member, le_rfl⟩)
        ⟨first, by simp, each first (by simp)⟩

/-- The longest of some durations has a value only if each of them has one. -/
theorem eval_of_longest {durations : List Scalar} {value : Decimal}
    (tidied : ∀ duration ∈ durations, duration.tidy = true)
    (evaluates : (longest durations).eval bindings = .ok value) :
    ∀ duration ∈ durations, ∃ number, duration.eval bindings = .ok number := by
  unfold longest at evaluates
  split at evaluates
  case h_1 => simp
  case h_2 duration => simpa using ⟨value, evaluates⟩
  case h_3 =>
      have chosen := (eval_max_ok_iff _ _).1 evaluates
      intro duration member
      obtain ⟨kept, keptMember, equal⟩ := exists_same_of_mem durations member
      obtain ⟨number, numberOk, _⟩ := chosen.all kept keptMember
      exact ⟨number, eval_of_same kept duration number
        (tidied kept (mem_of_mem_unique keptMember)) equal numberOk⟩

/-- A sum of durations has a value exactly when each of them has one. -/
theorem sum_of_durations_ok_iff (durations : List Scalar) (total : Decimal) :
    (Waveform.sumOfDurations durations).eval bindings = .ok total ↔
      ∃ values, List.Forall₂ (fun duration value => duration.eval bindings = .ok value) durations
        values ∧ total = values.sum := by
  have folded : ∀ (rest : List Scalar) (first : Scalar) (total : Decimal),
      (rest.foldl Scalar.add first).eval bindings = .ok total ↔
        ∃ value values, first.eval bindings = .ok value ∧
          List.Forall₂ (fun duration value => duration.eval bindings = .ok value) rest values ∧
          total = value + values.sum := by
    intro rest
    induction rest with
    | nil =>
        intro first total
        simp
    | cons next rest ih =>
        intro first total
        rw [List.foldl_cons, ih]
        constructor
        · rintro ⟨_, values, sumOk, each, rfl⟩
          obtain ⟨value, nextValue, firstOk, nextOk, rfl⟩ := (eval_add_ok_iff _ _ _).1 sumOk
          exact ⟨value, nextValue :: values, firstOk, List.Forall₂.cons nextOk each, by
            rw [List.sum_cons, add_assoc]⟩
        · rintro ⟨value, values, firstOk, each, rfl⟩
          cases each with
          | @cons _ nextValue _ others nextOk restEach =>
              refine ⟨value + nextValue, others, (eval_add_ok_iff _ _ _).2
                ⟨value, nextValue, firstOk, nextOk, rfl⟩, restEach, ?_⟩
              rw [List.sum_cons, add_assoc]
  cases durations with
  | nil => simp [Waveform.sumOfDurations, Scalar.zero, eq_comm]
  | cons first rest =>
      rw [Waveform.sumOfDurations, folded]
      constructor
      · rintro ⟨value, values, firstOk, each, rfl⟩
        exact ⟨value :: values, List.Forall₂.cons firstOk each, (List.sum_cons).symm⟩
      · rintro ⟨values, each, rfl⟩
        cases each with
        | cons firstOk restEach => exact ⟨_, _, firstOk, restEach, List.sum_cons⟩

namespace PerField

def Lasts (bindings : ScalarBindings) (time : Decimal) (fields : PerField Field) : Prop :=
  fields.EachDrive fun drive => drive.waveform.duration bindings = .ok time

def Even (bindings : ScalarBindings) (fields : PerField Field) : Prop :=
  ∃ time, fields.Lasts bindings time

variable {fields : PerField Field}

theorem plain_duration_known {time : Decimal}
    (tidied : fields.EachDrive fun drive => drive.waveform.Each (·.tidy))
    (lasts : fields.Lasts bindings time) (driven : ∃ name, fields.Drives name) :
    Known bindings (Pulse.plainDuration fields) time := by
  have known : ∀ name field, fields.get? name = some field → ∀ drive ∈ field.drives,
      Known bindings drive.waveform.symbolicDuration time := fun name field found drive member =>
    Waveform.symbolic_duration_known drive.waveform time (tidied name field found drive member)
      (lasts name field found drive member)
  obtain ⟨drivenName, drivenField, drivenFound, someDrive⟩ := driven
  have fieldKnown : ∀ name field, fields.get? name = some field → field.drives ≠ [] →
      Known bindings field.symbolicDuration time := by
    intro name field found notEmpty
    obtain ⟨drive, member⟩ := List.exists_mem_of_ne_nil _ notEmpty
    apply longest_known
    · rw [List.forall_mem_map]
      exact fun other otherMember => ⟨time, known name field found other otherMember, le_rfl⟩
    · exact ⟨_, List.mem_map.2 ⟨drive, member, rfl⟩, known name field found drive member⟩
  have nonneg : 0 ≤ time := by
    obtain ⟨drive, member⟩ := List.exists_mem_of_ne_nil _ someDrive
    exact Waveform.duration_nonneg (lasts drivenName drivenField drivenFound drive member)
  apply longest_known
  · rw [List.forall_mem_map, Prod.forall]
    intro name field member
    rw [mem_entries_iff] at member
    by_cases empty : field.drives = []
    · refine ⟨0, ?_, nonneg⟩
      rw [Field.symbolicDuration, empty]
      exact ⟨rfl, rfl⟩
    · exact ⟨time, fieldKnown name field member empty, le_rfl⟩
  · exact ⟨_, List.mem_map.2 ⟨(drivenName, drivenField),
      (mem_entries_iff _ _ _).2 drivenFound, rfl⟩,
      fieldKnown drivenName drivenField drivenFound someDrive⟩

theorem plain_duration_zero (undriven : ∀ name, ¬fields.Drives name) :
    Known bindings (Pulse.plainDuration fields) 0 := by
  apply longest_zero
  rw [List.forall_mem_map, Prod.forall]
  intro name field member
  rw [mem_entries_iff] at member
  have empty : field.drives = [] := by
    by_contra notEmpty
    exact undriven name ⟨field, member, notEmpty⟩
  rw [Field.symbolicDuration, empty]
  exact ⟨rfl, rfl⟩

theorem plain_duration_each {good : Scalar → Prop} (family : Family good)
    (each : fields.EachDrive fun drive => drive.waveform.Each good) :
    good (Pulse.plainDuration fields) := by
  apply longest_each family
  rw [List.forall_mem_map, Prod.forall]
  intro name field member
  rw [mem_entries_iff] at member
  apply longest_each family
  rw [List.forall_mem_map]
  exact fun drive driveMember => Waveform.symbolic_duration_each family _
    (each name field member drive driveMember)

end PerField

namespace Pulse

theorem symbolic_durations_eq_map (parts : List Pulse) :
    symbolicDurations parts = parts.map symbolicDuration := by
  induction parts with
  | nil => rfl
  | cons part rest ih => rw [symbolicDurations, ih, List.map_cons]

theorem symbolic_duration_each {good : Scalar → Prop} (family : Family good) (pulse : Pulse)
    (each : pulse.EachScalar good) : good pulse.symbolicDuration := by
  unfold EachScalar at each
  induction pulse using Pulse.parts_induction with
  | plain fields =>
      rw [each_plain_iff] at each
      exact PerField.plain_duration_each family (each.mono fun _ drive => drive.waveform)
  | append parts ih =>
      rw [each_append_iff] at each
      rw [symbolicDuration, symbolic_durations_eq_map]
      apply Waveform.sum_of_durations_each family
      rw [List.forall_mem_map]
      exact fun part member => ih part member (each part member)
  | slice inner interval ih =>
      obtain ⟨startGood, stopGood⟩ := (Interval.each_iff interval).1 each.2
      exact family.slice _ _ _ (ih each.1) startGood stopGood
  | named name inner ih => exact ih each

theorem append_duration_ok_iff (parts : List Pulse) (total : Decimal) :
    (append parts).symbolicDuration.eval bindings = .ok total ↔
      ∃ values, List.Forall₂ (fun part value => part.symbolicDuration.eval bindings = .ok value)
        parts values ∧ total = values.sum := by
  rw [symbolicDuration, symbolic_durations_eq_map, sum_of_durations_ok_iff]
  simp only [List.forall₂_map_left_iff]

end Pulse

namespace Sequence

theorem symbolic_durations_eq_map (parts : List Sequence) :
    symbolicDurations parts = parts.map symbolicDuration := by
  induction parts with
  | nil => rfl
  | cons part rest ih => rw [symbolicDurations, ih, List.map_cons]

theorem symbolic_duration_each {good : Scalar → Prop} (family : Family good) (sequence : Sequence)
    (each : sequence.EachScalar good) : good sequence.symbolicDuration := by
  unfold EachScalar at each
  induction sequence using Sequence.parts_induction with
  | plain pulses =>
      apply longest_each family
      rw [List.forall_mem_map, Prod.forall]
      intro coupling pulse member
      rw [PerCoupling.mem_entries_iff] at member
      exact pulse.symbolic_duration_each family (each coupling pulse member)
  | append parts ih =>
      rw [each_append_iff] at each
      rw [symbolicDuration, symbolic_durations_eq_map]
      apply Waveform.sum_of_durations_each family
      rw [List.forall_mem_map]
      exact fun part member => ih part member (each part member)
  | slice inner interval ih =>
      obtain ⟨startGood, stopGood⟩ := (Interval.each_iff interval).1 each.2
      exact family.slice _ _ _ (ih each.1) startGood stopGood
  | named name inner ih => exact ih each

theorem append_duration_ok_iff (parts : List Sequence) (total : Decimal) :
    (append parts).symbolicDuration.eval bindings = .ok total ↔
      ∃ values, List.Forall₂ (fun part value => part.symbolicDuration.eval bindings = .ok value)
        parts values ∧ total = values.sum := by
  rw [symbolicDuration, symbolic_durations_eq_map, sum_of_durations_ok_iff]
  simp only [List.forall₂_map_left_iff]

end Sequence

end Analog
