import Analog.Canonical.Circuit
import Analog.Proofs.RememberedWork
import Analog.Proofs.SequenceParts

/-!
# Merged drives

Drives are merged two by two, in whatever order, until no merge is left. A relation between
drives and their merge extends to a whole field and its canonical form if it goes on from
merge to merge, beside further drives, and does not depend on the order of drives. This holds
for every judgement of work that is made step by step.
-/

set_option autoImplicit false

namespace Analog

/-- A relation of drives before and after that goes on from merge to merge. -/
structure Merging (relation : List Drive → List Drive → Prop) : Prop where
  refl : ∀ drives, relation drives drives
  trans : ∀ {first second third}, relation first second → relation second third →
    relation first third
  cons : ∀ drive {given result}, relation given result →
    relation (drive :: given) (drive :: result)
  swap : ∀ first second rest, relation (first :: second :: rest) (second :: first :: rest)

/-- Good drives that are related to the given ones. -/
structure Merged (good : Drive → Prop) (relation : List Drive → List Drive → Prop)
    (given result : List Drive) : Prop where
  each : ∀ drive ∈ result, good drive
  related : relation given result

/-- A good drive that is related to the given ones, beside any further drives. -/
structure Replaced (good : Drive → Prop) (relation : List Drive → List Drive → Prop)
    (given : List Drive) (merged : Drive) : Prop where
  isGood : good merged
  related : ∀ rest, relation (given ++ rest) (merged :: rest)

variable {relation : List Drive → List Drive → Prop} {good : Drive → Prop}

namespace Merging

variable (merging : Merging relation)
include merging

theorem perm {given result : List Drive} (perm : given.Perm result) : relation given result := by
  induction perm with
  | nil => exact merging.refl []
  | cons drive _ ih => exact merging.cons drive ih
  | swap drive other rest => exact merging.swap other drive rest
  | trans _ _ one two => exact merging.trans one two

theorem cons_merged {drive : Drive} {given result : List Drive} (isGood : good drive)
    (merged : Merged good relation given result) :
    Merged good relation (drive :: given) (drive :: result) :=
  ⟨List.forall_mem_cons.2 ⟨isGood, merged.each⟩, merging.cons drive merged.related⟩

theorem trans_merged {first second third : List Drive} (one : Merged good relation first second)
    (two : Merged good relation second third) : Merged good relation first third :=
  ⟨two.each, merging.trans one.related two.related⟩

/-- Drive by drive, good drives take the place of the given ones. -/
theorem merged_of_each {given result : List Drive}
    (each : List.Forall₂ (fun before after => Replaced good relation [before] after) given result) :
    Merged good relation given result := by
  induction each with
  | nil => exact ⟨by simp, merging.refl []⟩
  | cons one _ ih =>
      exact ⟨List.forall_mem_cons.2 ⟨one.isGood, ih.each⟩,
        merging.trans (one.related _) (merging.cons _ ih.related)⟩

variable (summed : ∀ first second, good first → good second →
  first.target.same second.target = true →
  Replaced good relation [first, second] ⟨first.target, .add first.waveform second.waveform⟩)
include summed

theorem place_drive {drive : Drive} {placed : List Drive} (isGood : good drive)
    (each : ∀ other ∈ placed, good other) :
    Merged good relation (drive :: placed) (Field.placeDrive drive placed) := by
  induction placed with
  | nil => exact ⟨by simpa [Field.placeDrive] using isGood, merging.refl [drive]⟩
  | cons head rest ih =>
      obtain ⟨headGood, restGood⟩ := List.forall_mem_cons.1 each
      unfold Field.placeDrive
      have swapped := merging.swap drive head rest
      split_ifs with same
      · have sum := summed head drive headGood isGood same
        exact ⟨List.forall_mem_cons.2 ⟨sum.isGood, restGood⟩,
          merging.trans swapped (sum.related rest)⟩
      · obtain ⟨othersGood, others⟩ := merging.cons_merged headGood (ih restGood)
        exact ⟨othersGood, merging.trans swapped others⟩

theorem of_drives {drives : List Drive} (each : ∀ drive ∈ drives, good drive) :
    Merged good relation drives (Field.ofDrives drives).drives := by
  induction drives using List.reverseRecOn with
  | nil => exact ⟨each, merging.refl []⟩
  | append_singleton before last ih =>
      rw [List.forall_mem_append, List.forall_mem_singleton] at each
      obtain ⟨placedGood, related⟩ := ih each.1
      have placed := merging.place_drive summed each.2 placedGood
      have turned := merging.perm (List.perm_append_singleton last before)
      unfold Field.ofDrives at related placed ⊢
      rw [List.foldl_append]
      exact ⟨placed.each,
        merging.trans (merging.trans turned (merging.cons last related)) placed.related⟩

end Merging

namespace Canonical

variable {judges : (α : Type) → Simplifying α → (α → Prop) → Prop} (stepwise : Stepwise judges)
  (merging : Merging relation)
  (pairs : ∀ first second, good first → good second →
    judges _ (mergePair first second) fun result =>
      ∀ merged ∈ result, Replaced good relation [first, second] merged)
include stepwise merging pairs

theorem merge_with_merges {drive : Drive} {drives : List Drive}
    (each : ∀ other ∈ drive :: drives, good other) :
    judges _ (mergeWith drive drives) fun result => ∀ merged others,
      result = some (merged, others) →
        Merged good relation (drive :: drives) (merged :: others) := by
  obtain ⟨driveGood, drivesGood⟩ := List.forall_mem_cons.1 each
  induction drives with
  | nil =>
      rw [mergeWith]
      exact stepwise.pure (by simp)
  | cons next rest ih =>
      rw [mergeWith]
      obtain ⟨nextGood, restGood⟩ := List.forall_mem_cons.1 drivesGood
      refine stepwise.bind (pairs drive next driveGood nextGood) fun pair pairReplaced => ?_
      cases pair with
      | some merged =>
          refine stepwise.pure ?_
          rintro _ _ ⟨⟩
          obtain ⟨mergedGood, related⟩ := pairReplaced merged rfl
          exact ⟨List.forall_mem_cons.2 ⟨mergedGood, restGood⟩, related rest⟩
      | none =>
          refine stepwise.bind (ih (List.forall_mem_cons.2 ⟨driveGood, restGood⟩) restGood)
            fun later laterMerged => ?_
          cases later with
          | none => exact stepwise.pure (by simp)
          | some found =>
              obtain ⟨merged, others⟩ := found
              refine stepwise.pure ?_
              rintro _ _ ⟨⟩
              obtain ⟨allGood, related⟩ := merging.cons_merged nextGood (laterMerged merged others rfl)
              refine ⟨fun other member => allGood other ?_, ?_⟩
              · exact (List.Perm.swap next merged others).mem_iff.1 member
              · exact merging.trans (merging.swap drive next rest)
                  (merging.trans related (merging.swap next merged others))

theorem merge_once_merges {drives : List Drive} (each : ∀ drive ∈ drives, good drive) :
    judges _ (mergeOnce drives) fun result =>
      ∀ fewer ∈ result, Merged good relation drives fewer := by
  induction drives with
  | nil =>
      rw [mergeOnce]
      exact stepwise.pure (by simp)
  | cons drive rest ih =>
      rw [mergeOnce]
      obtain ⟨driveGood, restGood⟩ := List.forall_mem_cons.1 each
      refine stepwise.bind (merge_with_merges stepwise merging pairs each) fun pair pairMerged => ?_
      cases pair with
      | some found =>
          refine stepwise.pure ?_
          rintro _ ⟨⟩
          exact pairMerged found.1 found.2 rfl
      | none =>
          refine stepwise.bind (ih restGood) fun later laterMerged => ?_
          cases later with
          | none => exact stepwise.pure (by simp)
          | some fewer =>
              refine stepwise.pure ?_
              rintro _ ⟨⟩
              exact merging.cons_merged driveGood (laterMerged fewer rfl)

/-- However many merges there are, what is left is related to the drives given. -/
theorem merge_drives_merges (fuel : Nat) {drives : List Drive}
    (each : ∀ drive ∈ drives, good drive) :
    judges _ (mergeDrives fuel drives) (Merged good relation drives) := by
  induction fuel generalizing drives with
  | zero => exact stepwise.pure ⟨each, merging.refl drives⟩
  | succ fuel ih =>
      rw [mergeDrives]
      refine stepwise.bind (merge_once_merges stepwise merging pairs each) fun once onceMerged => ?_
      cases once with
      | none => exact stepwise.pure ⟨each, merging.refl drives⟩
      | some fewer =>
          have merged := onceMerged fewer rfl
          exact stepwise.mono (ih merged.each) fun result later => merging.trans_merged merged later

/-- The canonical form of a field is related to the field, and tells its modulations apart. -/
theorem field_merges {given : Field}
    (drives : ∀ item ∈ given.drives, judges _ (drive item) (Replaced good relation [item]))
    (summed : ∀ first second, good first → good second →
      first.target.same second.target = true →
      Replaced good relation [first, second]
        ⟨first.target, .add first.waveform second.waveform⟩) :
    judges _ (field given) fun result =>
      Field.Apart result.drives ∧ Merged good relation given.drives result.drives := by
  unfold field
  refine stepwise.bind (stepwise.mapM drives) fun canonical replaced => ?_
  have each := merging.merged_of_each replaced
  refine stepwise.bind (merge_drives_merges stepwise merging pairs _ each.each)
    fun merged related => stepwise.pure ⟨Field.of_drives_apart merged, ?_⟩
  have made := merging.of_drives summed related.each
  exact merging.trans_merged (merging.trans_merged each related) made

end Canonical

end Analog
