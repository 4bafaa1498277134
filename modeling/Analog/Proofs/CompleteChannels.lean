import Analog.Proofs.FlatSequences
import Analog.Waveform.Builtin

/-!
# Complete channels

The flat form of a padded sequence has exactly the channels that the channels of the given
sequence require, each of them once, and every channel lasts as long as the padded sequence.
-/

set_option autoImplicit false

namespace Analog

namespace Requirements

open Padding

theorem targets_of_distinct {channels : List Channel}
    (tidied : ∀ channel ∈ channels, channel.target.EachWeight (·.tidy))
    (distinct : channels.Pairwise fun earlier later => later.same earlier = false)
    (coupling : Coupling) (name : FieldName) :
    (targetsOf channels coupling name).Pairwise fun first second => first.same second = false := by
  unfold targetsOf
  dsimp only
  split_ifs
  · exact List.pairwise_singleton _ _
  · rw [List.pairwise_map]
    refine (distinct.filter _).imp_of_mem fun earlierMember laterMember different => ?_
    obtain ⟨member, earlierHere⟩ := List.mem_filter.1 earlierMember
    obtain ⟨_, laterHere⟩ := List.mem_filter.1 laterMember
    simp only [Bool.and_eq_true, beq_iff_eq] at earlierHere laterHere
    rw [Bool.eq_false_iff] at different ⊢
    refine fun equal => different ((Channel.same_iff _ _).2 ⟨?_, ?_, ?_⟩)
    · rw [earlierHere.1, laterHere.1]
    · rw [earlierHere.2, laterHere.2]
    · exact Modulation.same_symm (tidied _ member) equal

theorem channels_distinct {channels : List Channel}
    (tidied : ∀ channel ∈ channels, channel.target.EachWeight (·.tidy))
    (distinct : channels.Pairwise fun earlier later => later.same earlier = false) :
    (ofChannels channels).channels.Pairwise Channel.Distinct := by
  refine Channel.pairwise_distinct id (fun coupling name (targets : List Modulation) =>
    targets.map fun target => (⟨coupling, name, target⟩ : Channel)) (ofChannels channels)
    (fun coupling name targets => ?_) fun coupling required name targets isRequired isTargets => ?_
  · rw [List.forall_mem_map]
    exact fun target _ => ⟨rfl, rfl⟩
  · have isWanted : wanted ((ofChannels channels).of coupling) name = targets := by
      rw [of, isRequired, Option.getD_some, wanted, isTargets, Option.getD_some]
    have targetsTidy := of_channels_each tidied coupling name
    have used := wanted_of_channels channels coupling name
    rw [isWanted] at targetsTidy used
    rw [List.pairwise_map]
    split_ifs at used with inUse
    · have apart := targets_of_distinct tidied distinct coupling name
      rw [← used] at apart
      exact apart.imp_of_mem fun _ member different =>
        Channel.distinct_of_target (targetsTidy _ member) different
    · rw [used]
      exact List.Pairwise.nil

/-- Something is required only of couplings that have a channel. -/
theorem exists_channel_of_wanted {channels : List Channel} {coupling : Coupling} {name : FieldName}
    (someWanted : wanted ((ofChannels channels).of coupling) name ≠ []) :
    ∃ channel ∈ channels, channel.coupling = coupling := by
  rw [wanted_of_channels] at someWanted
  split_ifs at someWanted with used
  · simpa using used
  · exact absurd rfl someWanted

end Requirements

namespace Sequence

section

variable [Natives] {bindings : ScalarBindings} {given padded : Sequence}

theorem holds_covers (tidied : given.EachScalar (·.tidy)) (pads : given.pad bindings = .ok padded)
    {coupling : Coupling} {fields : PerField Field} (holds : padded.Holds coupling fields) :
    fields.Covers ((Requirements.ofChannels given.channels).of coupling) := by
  obtain ⟨pulses, pulsesMember, pulse, found, member⟩ := holds
  exact ((pad_ok Scalar.tidy_family tidied pads).2 pulses pulsesMember).2 coupling pulse found fields
    member

theorem flat_channel_required (tidied : given.EachScalar (·.tidy))
    (pads : given.pad bindings = .ok padded) :
    ∀ entry ∈ FlatSequence.drives padded.flatten,
      ∃ key ∈ (Requirements.ofChannels given.channels).channels, entry.1.same key = true := by
  rintro ⟨channel, waveform⟩ member
  obtain ⟨field, found, driveMember⟩ := (FlatSequence.mem_drives_iff _ _ _).1 member
  obtain ⟨fields, holds, modulates⟩ := (padded.flatten_gathers channel.coupling).within
    channel.field channel.target ⟨field, found, List.mem_map.2 ⟨_, driveMember, rfl⟩⟩
  obtain ⟨wanted, wantedMember, equal⟩ := (holds_covers tidied pads holds).within _ _ modulates
  exact ⟨⟨channel.coupling, channel.field, wanted⟩,
    (Requirements.mem_channels_iff _ _).2 wantedMember, (Channel.same_iff _ _).2 ⟨rfl, rfl, equal⟩⟩

theorem required_channel_reached (tidied : given.EachScalar (·.tidy))
    (pads : given.pad bindings = .ok padded) :
    ∀ key ∈ (Requirements.ofChannels given.channels).channels,
      ∃ entry ∈ FlatSequence.drives padded.flatten, entry.1.same key = true := by
  intro key member
  rw [Requirements.mem_channels_iff] at member
  obtain ⟨channel, used, sameCoupling⟩ :=
    Requirements.exists_channel_of_wanted (List.ne_nil_of_mem member)
  obtain ⟨source, sourceHolds, _⟩ := exists_use used
  rw [sameCoupling] at sourceHolds
  obtain ⟨fields, holds, _⟩ := pad_holds pads sourceHolds
  obtain ⟨target, modulates, equal⟩ := (holds_covers tidied pads holds).reached _ _ member
  obtain ⟨kept, ⟨field, found, isKept⟩, keptEqual⟩ :=
    (padded.flatten_gathers key.coupling).reached fields holds _ _ modulates
  obtain ⟨drive, driveMember, rfl⟩ := List.mem_map.1 isKept
  exact ⟨(⟨key.coupling, key.field, drive.target⟩, drive.waveform),
    (FlatSequence.mem_drives_iff _ _ _).2 ⟨field, found, driveMember⟩,
    (Channel.same_iff _ _).2 ⟨rfl, rfl, Modulation.same_trans keptEqual equal⟩⟩

/-- Padding and then flattening gives complete channels of one duration: every waveform of the
flat form lasts as long as the padded sequence, and the channels of the flat form are, up to
equality, those that the channels of the given sequence require, each of them once. -/
theorem padded_channels_complete (bindings : ScalarBindings) (given padded : Sequence)
    (duration : Decimal) (tidied : given.EachScalar (·.tidy))
    (pads : given.pad bindings = .ok padded)
    (lasts : padded.symbolicDuration.eval bindings = .ok duration) :
    (∀ entry ∈ FlatSequence.drives padded.flatten, entry.2.duration bindings = .ok duration) ∧
      ((FlatSequence.drives padded.flatten).Pairwise fun first second =>
        first.1.same second.1 = false ∧ second.1.same first.1 = false) ∧
      ∃ keys, keys.Perm (Requirements.ofChannels given.channels).channels ∧
        List.Forall₂ (fun entry key => entry.1.same key = true)
          (FlatSequence.drives padded.flatten) keys := by
  obtain ⟨paddedTidy, plains⟩ := pad_ok Scalar.tidy_family tidied pads
  obtain ⟨span, spans, agrees⟩ := padded.flatten_spans paddedTidy fun pulses member =>
    (plains pulses member).1
  have distinct := FlatSequence.drives_distinct spans
  have entryTidy := fun entry => @FlatSequence.drive_target_tidy _ _ _ spans entry
  refine ⟨?_, distinct, Outcome.exists_perm_matching _ _ ?_ ?_ (flat_channel_required tidied pads)
    (required_channel_reached tidied pads)⟩
  · rintro ⟨channel, waveform⟩ member
    exact ((FlatSequence.drive_measured spans member).lasts duration).2 (agrees duration lasts)
  · -- Two entries that equal one key equal each other.
    refine distinct.imp_of_mem fun firstMember secondMember different key firstEqual secondEqual => ?_
    rw [Channel.Distinct, Channel.same_trans firstEqual
      (Channel.same_symm (entryTidy _ secondMember) secondEqual)] at different
    cases different.1
  · have keysDistinct := Requirements.channels_distinct (channels_each tidied)
      (channels_distinct tidied)
    refine keysDistinct.imp fun different entry member firstEqual secondEqual => ?_
    rw [Channel.Distinct, Channel.same_trans (Channel.same_symm (entryTidy _ member) firstEqual)
      secondEqual] at different
    cases different.1

end

def oneSite : Modulation := .scaled [⟨0, .variable "w"⟩]

/-- A detuning on all sites, then the end of an amplitude on one site, then a pulse without parts. -/
def unevenParts : Sequence :=
  .append
    [.plain ⟨some (.plain ⟨some ⟨[⟨.uniform, .ramp (.literal 0) (.literal 1) (.literal 2)⟩]⟩,
      none, none⟩), none⟩,
    .slice (.plain ⟨none, some (.plain ⟨none, some ⟨[⟨oneSite,
      .constant (.variable "x") (.literal 3)⟩]⟩, none⟩)⟩) ⟨some (.literal 1), none⟩,
    .plain ⟨some (.append []), none⟩]

def rest (target : Modulation) (time : Decimal) : Field :=
  ⟨[⟨target, .zero (.literal time)⟩]⟩

/-- A plain pulse at rest, with the given modulation of its amplitude. -/
def restPulse (target : Modulation) (time : Decimal) : Pulse :=
  .plain ⟨some (rest .uniform time), some (rest target time), some (rest .uniform time)⟩

def evenParts : Sequence :=
  .append
    [.plain ⟨some (.plain ⟨some ⟨[⟨.uniform, .ramp (.literal 0) (.literal 1) (.literal 2)⟩]⟩,
        some (rest .uniform 2), some (rest .uniform 2)⟩),
      some (.append [restPulse oneSite 0, restPulse oneSite 2])⟩,
    .slice (.plain ⟨some (.append [restPulse .uniform 0, restPulse .uniform 3]),
      some (.plain ⟨some (rest .uniform 3), some ⟨[⟨oneSite,
        .constant (.variable "x") (.literal 3)⟩]⟩, some (rest .uniform 3)⟩)⟩)
      ⟨some (.literal 1), none⟩,
    .plain ⟨some (.append []), some (restPulse oneSite 0)⟩]

theorem uneven_channels : unevenParts.channels =
    [⟨.rydberg, .detuning, .uniform⟩, ⟨.hyperfine, .rabiAmplitude, oneSite⟩] :=
  Channel.unique_of_distinct (by decide)

/-- The one drive of a field is tidy if its weights are and its waveform is a leaf of tidy scalars. -/
theorem single_leaf_tidy {target : Modulation} {leaf : Waveform}
    (targetTidy : target.EachWeight (·.tidy)) (alone : leaf.nodes = [leaf])
    (scalarsTidy : Scalar.tidyAll leaf.scalars = true) :
    ∀ drive ∈ [Drive.mk target leaf], drive.Each (·.tidy) := by
  refine List.forall_mem_singleton.2 ⟨targetTidy, fun node member => ?_⟩
  rw [alone, List.mem_singleton] at member
  subst member
  exact (Scalar.tidy_all_iff _).1 scalarsTidy

theorem uneven_parts_tidy : unevenParts.EachScalar (·.tidy) := by
  rw [EachScalar, unevenParts, each_append_iff]
  refine List.forall_mem_cons.2 ⟨?_, List.forall_mem_cons.2 ⟨⟨?_, ?_⟩,
    List.forall_mem_singleton.2 ?_⟩⟩
  · rintro (_ | _) pulse found <;> cases found
    rintro (_ | _ | _) field fieldFound <;> cases fieldFound
    exact single_leaf_tidy trivial rfl rfl
  · rintro (_ | _) pulse found <;> cases found
    rintro (_ | _ | _) field fieldFound <;> cases fieldFound
    exact single_leaf_tidy (List.forall_mem_singleton.2 rfl) rfl rfl
  · exact List.forall_mem_singleton.2 rfl
  · rintro (_ | _) pulse found <;> cases found
    exact (Pulse.each_append_iff _).2 (List.forall_mem_nil _)

theorem padded_channels_complete_uneven_parts :
    unevenParts.pad ⟨[("x", 1)]⟩ = .ok evenParts ∧
      evenParts.symbolicDuration.eval ⟨[("x", 1)]⟩ = .ok 4 ∧
      (FlatSequence.drives evenParts.flatten).length = 6 ∧
      ∀ entry ∈ FlatSequence.drives evenParts.flatten,
        entry.2.duration ⟨[("x", 1)]⟩ = .ok 4 := by
  have pads : unevenParts.pad ⟨[("x", 1)]⟩ = .ok evenParts := by
    rw [pad, uneven_channels]
    rfl
  have lasts : evenParts.symbolicDuration.eval ⟨[("x", 1)]⟩ = .ok 4 := by
    rfl
  obtain ⟨each, _, keys, perm, related⟩ :=
    padded_channels_complete ⟨[("x", 1)]⟩ unevenParts evenParts 4 uneven_parts_tidy pads lasts
  refine ⟨pads, lasts, ?_, each⟩
  rw [related.length_eq, perm.length_eq, uneven_channels]
  rfl

end Sequence

end Analog
