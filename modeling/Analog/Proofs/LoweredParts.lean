import Analog.Proofs.ChannelCourses

/-!
# Waveforms inside lowered channels

Where the flat form of a sequence is lowered, so is every waveform inside that is not summed,
sliced, sampled or aligned, for lowering goes through all parts of what it joins. What has been
lowered in this way is pieced together, and all its scalars have values.
-/

set_option autoImplicit false

namespace Analog

open Scalar Stretch

namespace Waveform

/-- Neither a sum nor a slice, a sample or an alignment, all of which read values of what they are
made of, nor an append without parts. -/
def isUnread : Waveform → Bool
  | .add .. | .slice .. | .sample .. | .aligned .. => false
  | .append parts => !parts.isEmpty
  | .constant .. | .ramp .. | .poly .. | .native .. | .negative _ | .scale .. | .record ..
  | .smooth .. => true

/-- A waveform inside which nothing is summed, sliced, sampled or aligned. -/
def Unread (waveform : Waveform) : Prop :=
  ∀ node ∈ waveform.nodes, node.isUnread = true

instance (waveform : Waveform) : Decidable waveform.Unread :=
  inferInstanceAs (Decidable (∀ node ∈ waveform.nodes, node.isUnread = true))

theorem unread_iff (waveform : Waveform) :
    waveform.Unread ↔ waveform.isUnread = true ∧ ∀ child ∈ waveform.children, child.Unread :=
  each_node_iff _ waveform

theorem Unread.not_aligned {waveform : Waveform} (unread : waveform.Unread) :
    waveform.alignment? = (waveform, none) := by
  cases waveform with
  | aligned inner side fill => exact absurd ((unread_iff _).1 unread).1 Bool.false_ne_true
  | _ => rfl

variable [Natives] {bindings : ScalarBindings}

/-- A waveform that has a series, or none because it is no waveform. -/
def Lowered (bindings : ScalarBindings) (target : Target) (waveform : Waveform) : Prop :=
  match target with
  | .linear => ∃ found, linearSeries? bindings waveform = .ok found
  | .constant => ∃ found, constantSeries? bindings waveform = .ok found

theorem lowered_of_lower {target : Target} {waveform : Waveform} {series : Series}
    (lowers : waveform.lower bindings target = .ok series) : waveform.Lowered bindings target := by
  cases target with
  | linear =>
      obtain ⟨line, lineOk, _⟩ := (Outcome.map_ok_iff _ _ _).1 lowers
      obtain ⟨found, foundOk, _⟩ := (Outcome.bind_ok_iff _ _ _).1 lineOk
      exact ⟨found, foundOk⟩
  | constant =>
      obtain ⟨steps, stepsOk, _⟩ := (Outcome.map_ok_iff _ _ _).1 lowers
      obtain ⟨found, foundOk, _⟩ := (Outcome.bind_ok_iff _ _ _).1 stepsOk
      exact ⟨found, foundOk⟩

theorem Lowered.part {target : Target} {parts : List Waveform}
    (lowered : (append parts).Lowered bindings target) :
    ∀ part ∈ parts, part.Lowered bindings target := by
  intro part member
  cases target with
  | linear =>
      obtain ⟨found, foundOk⟩ := lowered
      obtain ⟨all, allOk, _⟩ := (Outcome.bind_ok_iff _ _ _).1 foundOk
      obtain ⟨one, _, oneOk⟩ :=
        Outcome.target_of_mem ((linear_series_all_ok_iff _ _).1 allOk) member
      exact ⟨one, oneOk⟩
  | constant =>
      obtain ⟨found, foundOk⟩ := lowered
      obtain ⟨all, allOk, _⟩ := (Outcome.bind_ok_iff _ _ _).1 foundOk
      obtain ⟨one, _, oneOk⟩ :=
        Outcome.target_of_mem ((constant_series_all_ok_iff _ _ _).1 allOk) member
      exact ⟨one, oneOk⟩

theorem Lowered.piece {target : Target} {waveform : Waveform} (unread : waveform.isUnread = true)
    (lowered : waveform.Lowered bindings target) : waveform.isPiece = true := by
  cases waveform with
  | native | smooth => cases target <;> cases lowered.choose_spec
  | _ => exact unread

omit [Natives] in
theorem evaluates_of_all {scalars : List Scalar} {values : List Decimal}
    (evaluates : Scalar.evalAll bindings scalars = .ok values) :
    ∀ scalar ∈ scalars, ∃ value, scalar.eval bindings = .ok value := by
  intro scalar member
  obtain ⟨value, _, evaluated⟩ :=
    Outcome.target_of_mem ((Scalar.eval_all_ok_iff _ _).1 evaluates) member
  exact ⟨value, evaluated⟩

theorem Lowered.own {target : Target} {waveform : Waveform} (piece : waveform.isPiece = true)
    (lowered : waveform.Lowered bindings target) :
    ∀ scalar ∈ waveform.scalars, ∃ value, scalar.eval bindings = .ok value := by
  cases waveform with
  | constant value duration =>
      cases target <;>
        simp only [Lowered, linearSeries?, constantSeries?, Outcome.bind_ok_iff,
          lowering_leaf_ok_iff] at lowered <;>
        obtain ⟨_, length, ⟨lengthOk, _⟩, number, numberOk, _⟩ := lowered <;>
        simp [scalars, lengthOk, numberOk]
  | ramp start stop duration =>
      cases target <;>
        simp only [Lowered, linearSeries?, constantSeries?, Outcome.bind_ok_iff,
          lowering_leaf_ok_iff] at lowered <;>
        obtain ⟨_, length, ⟨lengthOk, _⟩, first, firstOk, last, lastOk, _⟩ := lowered <;>
        simp [scalars, lengthOk, firstOk, lastOk]
  | poly coefficients duration =>
      cases target <;>
        simp only [Lowered, linearSeries?, constantSeries?, Outcome.bind_ok_iff,
          lowering_leaf_ok_iff] at lowered <;>
        obtain ⟨_, length, ⟨lengthOk, _⟩, values, valuesOk, _⟩ := lowered <;>
        exact List.forall_mem_append.2
          ⟨evaluates_of_all valuesOk, List.forall_mem_singleton.2 ⟨length, lengthOk⟩⟩
  | scale factor inner =>
      cases target <;>
        simp only [Lowered, linearSeries?, constantSeries?, Outcome.bind_ok_iff] at lowered <;>
        obtain ⟨_, _, _, number, numberOk, _⟩ := lowered <;>
        simp [scalars, numberOk]
  | negative | append | record => simp [scalars]
  | _ => exact absurd piece Bool.false_ne_true

theorem Lowered.child {target : Target} {waveform : Waveform} (piece : waveform.isPiece = true)
    (lowered : waveform.Lowered bindings target) :
    ∀ child ∈ waveform.children, child.Lowered bindings target := by
  cases waveform with
  | constant | ramp | poly => simp [children]
  | append parts => exact lowered.part
  | record name inner side => exact List.forall_mem_singleton.2 (by cases target <;> exact lowered)
  | negative inner | scale factor inner =>
      refine List.forall_mem_singleton.2 ?_
      cases target <;>
        simp only [Lowered, linearSeries?, constantSeries?, Outcome.bind_ok_iff] at lowered <;>
        obtain ⟨_, found, foundOk, _⟩ := lowered <;>
        exact ⟨found, foundOk⟩
  | _ => exact absurd piece Bool.false_ne_true

/-- What is lowered is pieced together, and all its scalars have values. -/
theorem Lowered.counted {target : Target} {waveform : Waveform} (unread : waveform.Unread)
    (fixed : waveform.Fixed) (lowered : waveform.Lowered bindings target) :
    waveform.Pieced ∧ Counted bindings waveform := by
  induction waveform using children_induction with
  | step waveform ih =>
      obtain ⟨isUnread, childUnread⟩ := (unread_iff waveform).1 unread
      obtain ⟨ownFixed, childFixed⟩ := (fixed_iff waveform).1 fixed
      have piece := lowered.piece isUnread
      have each := fun child member => ih child member (childUnread child member)
        (childFixed child member) (lowered.child piece child member)
      refine ⟨(pieced_iff _).2 ⟨piece, fun child member => (each child member).1⟩,
        (counted_iff _).2 ⟨fun scalar member => ?_, fun child member => (each child member).2⟩⟩
      obtain ⟨value, evaluates⟩ := lowered.own piece scalar member
      exact ⟨value, ownFixed scalar member, evaluates⟩

end Waveform

/-- The waveforms of a plain pulse are good, unless their modulation lists its sites. -/
def PerField.Shows (good : FieldName → Waveform → Prop) (fields : PerField Field) : Prop :=
  ∀ name field, fields.get? name = some field → ∀ drive ∈ field.drives, drive.target.Unlisted →
    good name drive.waveform

section Shows

variable {good : FieldName → Waveform → Prop}
  (ofAppend : ∀ name parts, good name (.append parts) → ∀ part ∈ parts, good name part)
  (ofSlice : ∀ name inner interval, good name (.slice inner interval) → good name inner)

namespace Flat

include ofAppend in
theorem join_shows {parts : List (FlatPulse × Scalar)} (shows : PerField.Shows good (join parts))
    {part : FlatPulse × Scalar} (member : part ∈ parts) (apart : PerField.Apart part.1) :
    PerField.Shows good part.1 := by
  intro name field found drive driveMember unlisted
  obtain ⟨kept, keptMember, equal⟩ := (targets_of_spec name (parts.map Prod.fst)).2.2 part.1
    (List.mem_map_of_mem member) drive.target
      ⟨field, found, List.mem_map.2 ⟨drive, driveMember, rfl⟩⟩
  obtain rfl := unlisted.same_right_iff.1 equal
  have joined := shows name (joinField name parts)
    ((get_join_iff _ _ _).2 ⟨⟨part, member, by simp [found]⟩, rfl⟩)
    ⟨drive.target, .append (parts.map (pieceOf name drive.target))⟩ (by
      rw [join_field_drives]
      exact List.mem_map.2 ⟨_, keptMember, rfl⟩) unlisted
  have piece := ofAppend name _ joined _ (List.mem_map_of_mem member)
  rw [pieceOf, found] at piece
  change good name ((field.lookup? drive.target).getD _) at piece
  rwa [Field.lookup?, Field.find_of_apart (apart name field found) driveMember] at piece

include ofSlice in
theorem cut_shows {interval : Interval} {fields : FlatPulse} (apart : PerField.Apart fields)
    (shows : PerField.Shows good (cut interval fields)) : PerField.Shows good fields := by
  intro name field found drive member unlisted
  have cutFound : (cut interval fields).get? name = some (cutField interval field) := by
    rw [cut, PerField.get_map, found]
    rfl
  refine ofSlice name _ interval
    (shows name _ cutFound ⟨drive.target, .slice drive.waveform interval⟩ ?_ unlisted)
  rw [cut_field_drives interval (apart name field found)]
  exact List.mem_map.2 ⟨drive, member, rfl⟩

end Flat

namespace Pulse

theorem flatten_apart (pulse : Pulse) (apart : ∀ fields ∈ pulse.plains, fields.Apart) :
    PerField.Apart pulse.flatten := by
  induction pulse using Pulse.parts_induction with
  | plain fields => exact apart fields (by simp [plains])
  | append parts _ => exact Flat.join_apart _
  | slice inner interval _ => exact Flat.cut_apart _ _
  | named name inner ih => exact ih apart

include ofAppend ofSlice in
/-- The flat form of a pulse shows the waveforms of the plain pulses inside. -/
theorem plains_show (pulse : Pulse) (apart : ∀ fields ∈ pulse.plains, fields.Apart)
    (shows : PerField.Shows good pulse.flatten) : ∀ fields ∈ pulse.plains, fields.Shows good := by
  induction pulse using Pulse.parts_induction with
  | plain fields =>
      intro other member
      rw [plains, List.mem_singleton] at member
      exact member ▸ shows
  | append parts ih =>
      have inside : ∀ part ∈ parts, ∀ fields ∈ part.plains, fields ∈ (append parts).plains :=
        fun part member fields found => by
          rw [plains, mem_plains_all]
          exact ⟨part, member, found⟩
      intro fields found
      rw [plains, mem_plains_all] at found
      obtain ⟨part, member, found⟩ := found
      have partApart := fun fields found => apart fields (inside part member fields found)
      rw [flatten, flatten_all_eq_map, List.map_map] at shows
      exact ih part member partApart
        (Flat.join_shows ofAppend shows (List.mem_map_of_mem member) (part.flatten_apart partApart))
        fields found
  | slice inner interval ih =>
      exact ih apart (Flat.cut_shows ofSlice (inner.flatten_apart apart) shows)
  | named name inner ih => exact ih apart shows

end Pulse

namespace Sequence

theorem flatten_apart (sequence : Sequence) {coupling : Coupling}
    (apart : ∀ fields, sequence.Holds coupling fields → fields.Apart) :
    PerField.Apart (FlatSequence.of sequence.flatten coupling) := by
  induction sequence using Sequence.parts_induction with
  | plain pulses =>
      rw [FlatSequence.of, flatten, PerCoupling.get_map]
      cases found : pulses.get? coupling with
      | none => exact fun name field isField => by simp at isField
      | some pulse =>
          exact pulse.flatten_apart fun fields member =>
            apart fields ⟨pulses, by simp [plains], pulse, found, member⟩
  | append parts _ =>
      rw [flatten_append_of]
      exact Flat.join_apart _
  | slice inner interval _ =>
      rw [flatten_slice_of]
      exact Flat.cut_apart _ _
  | named name inner ih => exact ih apart

include ofAppend ofSlice in
/-- The flat form of a sequence shows the waveforms of the plain pulses inside. -/
theorem holds_shows (sequence : Sequence) {coupling : Coupling}
    (apart : ∀ fields, sequence.Holds coupling fields → fields.Apart)
    (shows : PerField.Shows good (FlatSequence.of sequence.flatten coupling)) :
    ∀ fields, sequence.Holds coupling fields → fields.Shows good := by
  induction sequence using Sequence.parts_induction with
  | plain pulses =>
      rintro fields ⟨source, sourceMember, pulse, found, member⟩
      rw [plains, List.mem_singleton] at sourceMember
      subst sourceMember
      rw [FlatSequence.of, flatten, PerCoupling.get_map, found] at shows
      exact pulse.plains_show ofAppend ofSlice (fun other otherMember =>
        apart other ⟨source, by simp [plains], pulse, found, otherMember⟩) shows fields member
  | append parts ih =>
      intro fields holds
      obtain ⟨part, member, partHolds⟩ := (holds_append_iff parts coupling fields).1 holds
      have partApart := fun other otherHolds =>
        apart other ((holds_append_iff parts coupling other).2 ⟨part, member, otherHolds⟩)
      rw [flatten_append_of] at shows
      exact ih part member partApart (Flat.join_shows ofAppend shows (List.mem_map_of_mem member)
        (part.flatten_apart partApart)) fields partHolds
  | slice inner interval ih =>
      rw [flatten_slice_of] at shows
      exact ih apart (Flat.cut_shows ofSlice (inner.flatten_apart apart) shows)
  | named name inner ih => exact ih apart shows

end Sequence

end Shows

end Analog
