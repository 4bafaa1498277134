import Analog.Proofs.PaddedSequences
import Analog.Sequence.Flat

/-!
# Channels of flat sequences

Flattening neither invents nor loses a channel: the modulations of a flat pulse come from
the plain pulses inside, and each of those has an equal in the flat pulse. No field of
pulses that were joined or cut has a modulation twice, and no waveform in it is an append
without parts if none was before.
-/

set_option autoImplicit false

namespace Analog

namespace Flat

theorem add_targets_apart (more targets : List Modulation)
    (apart : targets.Pairwise fun first second => first.same second = false) :
    (addTargets targets more).Pairwise fun first second => first.same second = false := by
  unfold addTargets
  induction more generalizing targets with
  | nil => exact apart
  | cons target rest ih =>
      rw [List.foldl_cons]
      split_ifs with found
      · exact ih targets apart
      · refine ih _ (List.pairwise_append.2 ⟨apart, List.pairwise_singleton _ _, ?_⟩)
        intro first member last isLast
        rw [List.mem_singleton.1 isLast]
        simp only [List.any_eq_true, not_exists, not_and, Bool.not_eq_true] at found
        exact found first member

theorem mem_add_targets {more targets : List Modulation} {target : Modulation}
    (member : target ∈ addTargets targets more) : target ∈ targets ∨ target ∈ more := by
  unfold addTargets at member
  induction more generalizing targets with
  | nil => exact Or.inl member
  | cons first rest ih =>
      rw [List.foldl_cons] at member
      split_ifs at member
      · exact (ih member).imp id (List.mem_cons_of_mem first)
      · rcases ih member with early | late
        · rcases List.mem_append.1 early with old | new
          · exact Or.inl old
          · exact Or.inr (by simp [List.mem_singleton.1 new])
        · exact Or.inr (List.mem_cons_of_mem first late)

theorem add_targets_reach (more targets : List Modulation) :
    (∀ target ∈ targets, target ∈ addTargets targets more) ∧
      ∀ target ∈ more, ∃ kept ∈ addTargets targets more, kept.same target = true := by
  unfold addTargets
  induction more generalizing targets with
  | nil => simp
  | cons first rest ih =>
      rw [List.foldl_cons]
      split_ifs with found
      · obtain ⟨kept, reached⟩ := ih targets
        obtain ⟨equal, member, isEqual⟩ := List.any_eq_true.1 found
        exact ⟨kept, List.forall_mem_cons.2 ⟨⟨equal, kept equal member, isEqual⟩, reached⟩⟩
      · obtain ⟨kept, reached⟩ := ih (targets ++ [first])
        refine ⟨fun target member => kept target (by simp [member]), List.forall_mem_cons.2
          ⟨⟨first, kept first (by simp), first.same_refl⟩, reached⟩⟩

theorem targets_of_snoc (name : FieldName) (before : List FlatPulse) (last : FlatPulse) :
    targetsOf name (before ++ [last]) = (last.get? name).elim (targetsOf name before)
      fun field => addTargets (targetsOf name before) field.targets := by
  unfold targetsOf
  rw [List.foldl_append, List.foldl_cons, List.foldl_nil]
  cases last.get? name <;> rfl

/-- The modulations of one field in several pulses: told apart, each from one of the pulses, and
with an equal for every modulation of any of them. -/
theorem targets_of_spec (name : FieldName) (parts : List FlatPulse) :
    (targetsOf name parts).Pairwise (fun first second => first.same second = false) ∧
      (∀ target ∈ targetsOf name parts, ∃ part ∈ parts, PerField.Modulates part name target) ∧
      ∀ part ∈ parts, ∀ target, PerField.Modulates part name target →
        ∃ kept ∈ targetsOf name parts, kept.same target = true := by
  induction parts using List.reverseRecOn with
  | nil => simp [targetsOf]
  | append_singleton before last ih =>
      obtain ⟨apart, source, reached⟩ := ih
      rw [targets_of_snoc]
      cases found : last.get? name with
      | none =>
          refine ⟨apart, fun target member => ?_, List.forall_mem_append.2
            ⟨reached, List.forall_mem_singleton.2 ?_⟩⟩
          · obtain ⟨part, partMember, modulates⟩ := source target member
            exact ⟨part, List.mem_append_left _ partMember, modulates⟩
          · rintro target ⟨field, isField, _⟩
            rw [found] at isField
            cases isField
      | some field =>
          obtain ⟨kept, added⟩ := add_targets_reach field.targets (targetsOf name before)
          refine ⟨add_targets_apart _ _ apart, fun target member => ?_, List.forall_mem_append.2
            ⟨fun part partMember target modulates => ?_, List.forall_mem_singleton.2 ?_⟩⟩
          · rcases mem_add_targets member with early | late
            · obtain ⟨part, partMember, modulates⟩ := source target early
              exact ⟨part, List.mem_append_left _ partMember, modulates⟩
            · exact ⟨last, by simp, field, found, late⟩
          · obtain ⟨equal, member, isEqual⟩ := reached part partMember target modulates
            exact ⟨equal, kept equal member, isEqual⟩
          · rintro target ⟨own, isOwn, member⟩
            rw [found, Option.some.injEq] at isOwn
            subst isOwn
            exact added target member

theorem join_field_drives (name : FieldName) (parts : List (FlatPulse × Scalar)) :
    (joinField name parts).drives = (targetsOf name (parts.map Prod.fst)).map fun target =>
      ⟨target, .append (parts.map (pieceOf name target))⟩ := by
  unfold joinField
  apply Field.of_drives_of_apart
  rw [Field.Apart, List.pairwise_map]
  exact (targets_of_spec name _).1

theorem get_join_iff (parts : List (FlatPulse × Scalar)) (name : FieldName) (field : Field) :
    (join parts).get? name = some field ↔
      (∃ part ∈ parts, (part.1.get? name).isSome) ∧ field = joinField name parts := by
  unfold join
  dsimp only
  rw [PerField.get_of_entries_iff]
  · simp only [List.mem_map, List.mem_filter, Padding.mem_all_names, true_and, List.any_eq_true,
      Prod.mk.injEq]
    constructor
    · rintro ⟨_, used, rfl, rfl⟩
      exact ⟨used, rfl⟩
    · rintro ⟨used, rfl⟩
      exact ⟨name, used, rfl, rfl⟩
  · rw [List.map_map]
    exact (Padding.all_names_once.filter _).map fun _ _ same => same

theorem join_modulates_iff (parts : List (FlatPulse × Scalar)) (name : FieldName)
    (target : Modulation) :
    (join parts).Modulates name target ↔ target ∈ targetsOf name (parts.map Prod.fst) := by
  have targets : (joinField name parts).targets = targetsOf name (parts.map Prod.fst) := by
    rw [Field.targets, join_field_drives, List.map_map]
    exact List.map_id _
  simp only [PerField.Modulates, get_join_iff]
  constructor
  · rintro ⟨_, ⟨_, rfl⟩, member⟩
    exact targets ▸ member
  · intro member
    obtain ⟨fields, fieldsMember, field, found, _⟩ := (targets_of_spec name _).2.1 target member
    obtain ⟨part, partMember, rfl⟩ := List.mem_map.1 fieldsMember
    exact ⟨_, ⟨⟨part, partMember, by simp [found]⟩, rfl⟩, targets ▸ member⟩

theorem join_apart (parts : List (FlatPulse × Scalar)) : (join parts).Apart := by
  intro name field found
  obtain ⟨_, rfl⟩ := (get_join_iff parts name field).1 found
  exact Field.of_drives_apart _

theorem cut_apart (interval : Interval) (fields : FlatPulse) : (cut interval fields).Apart := by
  intro name field found
  rw [cut, PerField.get_map, Option.map_eq_some_iff] at found
  obtain ⟨source, _, rfl⟩ := found
  exact Field.of_drives_apart _

/-- The modulations of a flat pulse are those of some plain pulses, up to equality. -/
structure Gathers (sources : PerField Field → Prop) (flat : FlatPulse) : Prop where
  within : ∀ name target, PerField.Modulates flat name target →
    ∃ fields, sources fields ∧ fields.Modulates name target
  reached : ∀ fields, sources fields → ∀ name target, fields.Modulates name target →
    ∃ kept, PerField.Modulates flat name kept ∧ kept.same target = true

variable {sources : PerField Field → Prop}

theorem Gathers.drives_iff {flat : FlatPulse} (gathers : Gathers sources flat) (name : FieldName) :
    PerField.Drives flat name ↔ ∃ fields, sources fields ∧ fields.Drives name := by
  simp only [PerField.drives_iff]
  constructor
  · rintro ⟨target, modulates⟩
    obtain ⟨fields, isSource, inside⟩ := gathers.within name target modulates
    exact ⟨fields, isSource, target, inside⟩
  · rintro ⟨fields, isSource, target, inside⟩
    obtain ⟨kept, modulates, _⟩ := gathers.reached fields isSource name target inside
    exact ⟨kept, modulates⟩

theorem Gathers.congr {others : PerField Field → Prop} {flat : FlatPulse}
    (gathers : Gathers sources flat) (same : ∀ fields, sources fields ↔ others fields) :
    Gathers others flat := by
  simp only [funext fun fields => propext (same fields)] at gathers
  exact gathers

theorem gathers_itself (fields : PerField Field) : Gathers (· = fields) fields := by
  refine ⟨fun name target modulates => ⟨fields, rfl, modulates⟩, ?_⟩
  rintro _ rfl name target modulates
  exact ⟨target, modulates, target.same_refl⟩

theorem gathers_empty (noSources : ∀ fields, ¬sources fields) : Gathers sources .empty := by
  refine ⟨?_, fun fields isSource => absurd isSource (noSources fields)⟩
  rintro name target ⟨field, found, _⟩
  simp at found

theorem join_gathers {ι : Type} {items : List ι} {sourcesOf : ι → PerField Field → Prop}
    {part : ι → FlatPulse × Scalar}
    (each : ∀ item ∈ items, Gathers (sourcesOf item) (part item).1) :
    Gathers (fun fields => ∃ item ∈ items, sourcesOf item fields) (join (items.map part)) := by
  constructor
  · intro name target modulates
    rw [join_modulates_iff] at modulates
    obtain ⟨fields, member, inside⟩ := (targets_of_spec name _).2.1 target modulates
    rw [List.map_map] at member
    obtain ⟨item, itemMember, rfl⟩ := List.mem_map.1 member
    obtain ⟨source, isSource, sourceInside⟩ := (each item itemMember).within name target inside
    exact ⟨source, ⟨item, itemMember, isSource⟩, sourceInside⟩
  · rintro fields ⟨item, itemMember, isSource⟩ name target modulates
    obtain ⟨kept, inside, equal⟩ := (each item itemMember).reached fields isSource name target modulates
    obtain ⟨joined, member, joinedEqual⟩ := (targets_of_spec name ((items.map part).map Prod.fst)).2.2
      (part item).1 (by rw [List.map_map]; exact List.mem_map.2 ⟨item, itemMember, rfl⟩) kept inside
    exact ⟨joined, (join_modulates_iff _ _ _).2 member, Modulation.same_trans joinedEqual equal⟩

theorem cut_gathers {flat : FlatPulse} (interval : Interval) (gathers : Gathers sources flat) :
    Gathers sources (cut interval flat) := by
  constructor
  · rintro name target ⟨field, found, member⟩
    rw [cut, PerField.get_map, Option.map_eq_some_iff] at found
    obtain ⟨source, sourceFound, rfl⟩ := found
    obtain ⟨sliced, slicedMember, rfl⟩ := (Field.of_drives_targets _).1 target member
    obtain ⟨drive, driveMember, rfl⟩ := List.mem_map.1 slicedMember
    exact gathers.within name drive.target
      ⟨source, sourceFound, List.mem_map.2 ⟨drive, driveMember, rfl⟩⟩
  · intro fields isSource name target modulates
    obtain ⟨kept, ⟨field, found, member⟩, equal⟩ := gathers.reached fields isSource name target modulates
    obtain ⟨drive, driveMember, rfl⟩ := List.mem_map.1 member
    obtain ⟨sliced, slicedMember, slicedEqual⟩ := (Field.of_drives_targets (field.drives.map
      fun drive => ⟨drive.target, .slice drive.waveform interval⟩)).2 _
      (List.mem_map.2 ⟨drive, driveMember, rfl⟩)
    refine ⟨sliced, ⟨cutField interval field, ?_, slicedMember⟩, Modulation.same_trans slicedEqual equal⟩
    rw [cut, PerField.get_map, found]
    rfl

end Flat

def Waveform.Filled (waveform : Waveform) : Prop :=
  ∀ node ∈ waveform.exposed, node ≠ .append []

namespace Flat

theorem of_drives_filled {drives : List Drive} (each : ∀ drive ∈ drives, drive.waveform.Filled) :
    ∀ drive ∈ (Field.ofDrives drives).drives, drive.waveform.Filled := by
  apply Field.of_drives_each _ each
  intro first second firstFilled secondFilled _ node member
  rw [Waveform.exposed, List.mem_cons, List.mem_append] at member
  rcases member with rfl | left | right
  · simp
  · exact firstFilled node left
  · exact secondFilled node right

theorem piece_filled {part : FlatPulse × Scalar}
    (filled : part.1.EachDrive fun drive => drive.waveform.Filled) (name : FieldName)
    (target : Modulation) : (pieceOf name target part).Filled := by
  have zero : (Waveform.zero part.2).Filled := by simp [Waveform.Filled, Waveform.zero, Waveform.exposed]
  unfold pieceOf
  cases found : part.1.get? name with
  | none => exact zero
  | some field =>
      change ((field.lookup? target).getD (Waveform.zero part.2)).Filled
      unfold Field.lookup?
      cases lookedUp : field.drives.find? (·.target.same target) with
      | none => exact zero
      | some drive => exact filled name field found drive (List.mem_of_find?_eq_some lookedUp)

theorem join_filled {parts : List (FlatPulse × Scalar)}
    (filled : ∀ part ∈ parts, part.1.EachDrive fun drive => drive.waveform.Filled) :
    (join parts).EachDrive fun drive => drive.waveform.Filled := by
  intro name field found
  obtain ⟨⟨part, partMember, _⟩, rfl⟩ := (get_join_iff parts name field).1 found
  rw [join_field_drives, List.forall_mem_map]
  intro target _ node member
  rw [Waveform.exposed, List.mem_cons, Waveform.mem_exposed_all] at member
  rcases member with rfl | ⟨piece, pieceMember, inside⟩
  · simpa using List.ne_nil_of_mem partMember
  · obtain ⟨other, otherMember, rfl⟩ := List.mem_map.1 pieceMember
    exact piece_filled (filled other otherMember) name target node inside

theorem cut_filled {fields : FlatPulse} (interval : Interval)
    (filled : PerField.EachDrive (fun drive => drive.waveform.Filled) fields) :
    (cut interval fields).EachDrive fun drive => drive.waveform.Filled := by
  intro name field found
  rw [cut, PerField.get_map, Option.map_eq_some_iff] at found
  obtain ⟨source, sourceFound, rfl⟩ := found
  apply of_drives_filled
  rw [List.forall_mem_map]
  intro drive member node inside
  rw [Waveform.exposed, List.mem_cons] at inside
  rcases inside with rfl | below
  · simp
  · exact filled name source sourceFound drive member node below

end Flat

namespace Pulse

theorem flatten_all_eq_map (parts : List Pulse) : flattenAll parts = parts.map flatten := by
  induction parts with
  | nil => rfl
  | cons part rest ih => rw [flattenAll, ih, List.map_cons]

/-- The flat form of a pulse gathers the modulations of the plain pulses inside. -/
theorem flatten_gathers (pulse : Pulse) : Flat.Gathers (· ∈ pulse.plains) pulse.flatten := by
  induction pulse using Pulse.parts_induction with
  | plain fields =>
      simp only [plains, List.mem_singleton]
      exact Flat.gathers_itself fields
  | append parts ih =>
      rw [flatten, flatten_all_eq_map, List.map_map]
      simp only [plains, mem_plains_all]
      exact Flat.join_gathers ih
  | slice inner interval ih => exact Flat.cut_gathers interval ih
  | named name inner ih => exact ih

theorem flatten_filled (pulse : Pulse)
    (filled : ∀ fields ∈ pulse.plains, fields.EachDrive fun drive => drive.waveform.Filled) :
    pulse.flatten.EachDrive fun drive => drive.waveform.Filled := by
  induction pulse using Pulse.parts_induction with
  | plain fields => exact filled fields (by simp [plains])
  | append parts ih =>
      rw [flatten, flatten_all_eq_map, List.map_map]
      apply Flat.join_filled
      rw [List.forall_mem_map]
      refine fun part member => ih part member fun fields found => filled fields ?_
      rw [plains, mem_plains_all]
      exact ⟨part, member, found⟩
  | slice inner interval ih => exact Flat.cut_filled interval (ih filled)
  | named name inner ih => exact ih filled

end Pulse

/-- The flat pulse of a coupling, which drives nothing if there is none. -/
def FlatSequence.of (flat : FlatSequence) (coupling : Coupling) : FlatPulse :=
  (flat.get? coupling).getD .empty

namespace Sequence

theorem flatten_all_eq_map (parts : List Sequence) : flattenAll parts = parts.map flatten := by
  induction parts with
  | nil => rfl
  | cons part rest ih => rw [flattenAll, ih, List.map_cons]

theorem holds_append_iff (parts : List Sequence) (coupling : Coupling) (fields : PerField Field) :
    (append parts).Holds coupling fields ↔ ∃ part ∈ parts, part.Holds coupling fields := by
  simp only [Holds, plains, mem_plains_all]
  constructor
  · rintro ⟨pulses, ⟨part, member, inside⟩, rest⟩
    exact ⟨part, member, pulses, inside, rest⟩
  · rintro ⟨part, member, pulses, inside, rest⟩
    exact ⟨pulses, ⟨part, member, inside⟩, rest⟩

theorem get_join_flat_iff (parts : List FlatSequence) (coupling : Coupling) (fields : FlatPulse) :
    (joinFlat parts).get? coupling = some fields ↔
      (∃ part ∈ parts, (part.get? coupling).isSome) ∧
        fields = Flat.join (parts.map fun part =>
          (FlatSequence.of part coupling, (FlatSequence.toSequence part).symbolicDuration)) := by
  unfold joinFlat
  dsimp only
  rw [PerCoupling.get_of_entries_iff]
  · simp only [List.mem_map, List.mem_filter, List.any_eq_true, Prod.mk.injEq]
    constructor
    · rintro ⟨_, ⟨_, used⟩, rfl, rfl⟩
      exact ⟨used, rfl⟩
    · rintro ⟨used, rfl⟩
      exact ⟨coupling, ⟨Padding.mem_all_couplings coupling, used⟩, rfl, rfl⟩
  · rw [List.map_map]
    exact (Padding.all_couplings_once.filter _).map fun _ _ same => same

theorem join_flat_of (parts : List FlatSequence) (coupling : Coupling) :
    FlatSequence.of (joinFlat parts) coupling = Flat.join (parts.map fun part =>
      (FlatSequence.of part coupling, (FlatSequence.toSequence part).symbolicDuration)) := by
  by_cases used : ∃ part ∈ parts, (part.get? coupling).isSome
  · rw [FlatSequence.of, (get_join_flat_iff parts coupling _).2 ⟨used, rfl⟩, Option.getD_some]
  · have missing : (joinFlat parts).get? coupling = none := by
      rw [Option.eq_none_iff_forall_ne_some]
      exact fun fields found => used ((get_join_flat_iff parts coupling fields).1 found).1
    have idle : ∀ part ∈ parts, FlatSequence.of part coupling = .empty := by
      intro part member
      have unused : part.get? coupling = none := by
        rw [← Option.not_isSome_iff_eq_none]
        exact fun isThere => used ⟨part, member, isThere⟩
      rw [FlatSequence.of, unused, Option.getD_none]
    have noNames : (FieldName.all.filter fun name => (parts.map fun part =>
        (FlatSequence.of part coupling, (FlatSequence.toSequence part).symbolicDuration)).any
          fun part => (part.1.get? name).isSome) = [] := by
      rw [List.filter_eq_nil_iff]
      intro name _ isThere
      obtain ⟨_, pairMember, isSome⟩ := List.any_eq_true.1 isThere
      obtain ⟨part, member, rfl⟩ := List.mem_map.1 pairMember
      simp [idle part member] at isSome
    unfold Flat.join
    rw [noNames, FlatSequence.of, missing]
    rfl

theorem flatten_slice_of (inner : Sequence) (interval : Interval) (coupling : Coupling) :
    FlatSequence.of (slice inner interval).flatten coupling =
      Flat.cut interval (FlatSequence.of inner.flatten coupling) := by
  rw [FlatSequence.of, FlatSequence.of, flatten, PerCoupling.get_map]
  cases inner.flatten.get? coupling <;> rfl

theorem flatten_append_of (parts : List Sequence) (coupling : Coupling) :
    FlatSequence.of (append parts).flatten coupling = Flat.join (parts.map fun part =>
      (FlatSequence.of part.flatten coupling,
        (FlatSequence.toSequence part.flatten).symbolicDuration)) := by
  rw [flatten, join_flat_of, flatten_all_eq_map, List.map_map]
  rfl

/-- The flat form of a sequence gathers the modulations of all plain pulses of a coupling. -/
theorem flatten_gathers (sequence : Sequence) (coupling : Coupling) :
    Flat.Gathers (sequence.Holds coupling) (FlatSequence.of sequence.flatten coupling) := by
  induction sequence using Sequence.parts_induction with
  | plain pulses =>
      rw [FlatSequence.of, flatten, PerCoupling.get_map]
      cases found : pulses.get? coupling with
      | none =>
          apply Flat.gathers_empty
          simp [Holds, plains, found]
      | some pulse =>
          refine pulse.flatten_gathers.congr fun fields => ?_
          simp [Holds, plains, found]
  | append parts ih =>
      rw [flatten_append_of]
      exact (Flat.join_gathers ih).congr fun fields => (holds_append_iff parts coupling fields).symm
  | slice inner interval ih =>
      rw [flatten_slice_of]
      exact Flat.cut_gathers interval ih
  | named name inner ih => exact ih

theorem flatten_filled (sequence : Sequence) (coupling : Coupling)
    (filled : ∀ fields, sequence.Holds coupling fields →
      fields.EachDrive fun drive => drive.waveform.Filled) :
    (FlatSequence.of sequence.flatten coupling).EachDrive fun drive => drive.waveform.Filled := by
  induction sequence using Sequence.parts_induction with
  | plain pulses =>
      rw [FlatSequence.of, flatten, PerCoupling.get_map]
      cases found : pulses.get? coupling with
      | none => exact PerField.each_drive_empty
      | some pulse =>
          exact pulse.flatten_filled fun fields member => filled fields
            ⟨pulses, by simp [plains], pulse, found, member⟩
  | append parts ih =>
      rw [flatten_append_of]
      apply Flat.join_filled
      rw [List.forall_mem_map]
      exact fun part member => ih part member fun fields holds =>
        filled fields ((holds_append_iff parts coupling fields).2 ⟨part, member, holds⟩)
  | slice inner interval ih =>
      rw [flatten_slice_of]
      exact Flat.cut_filled interval (ih filled)
  | named name inner ih => exact ih filled

end Sequence

end Analog
