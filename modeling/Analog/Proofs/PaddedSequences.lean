import Analog.Padding
import Analog.Proofs.CanonicalCircuits
import Analog.Proofs.ChannelEquality

/-!
# Padded sequences

Padding brings all drives of a plain pulse to one duration, and all pulses of a plain
sequence that drive anything. It gives every plain pulse the modulations that are required
of its coupling and no others, up to equality, so that a coupling that is in use drives all
fields in every plain pulse, and a coupling that is not in use drives none. The scalars of
a padded sequence are tidy, or fixed, where those of the given one are.
-/

set_option autoImplicit false

namespace Analog

theorem PerField.mem_channels_iff (coupling : Coupling) (fields : PerField Field)
    (channel : Channel) :
    channel ∈ fields.channels coupling ↔
      channel.coupling = coupling ∧ fields.Modulates channel.field channel.target := by
  obtain ⟨channelCoupling, name, target⟩ := channel
  simp only [channels, List.mem_flatMap, Prod.exists, mem_entries_iff, List.mem_map,
    Channel.mk.injEq, Modulates]
  constructor
  · rintro ⟨_, field, found, target, member, rfl, rfl, rfl⟩
    exact ⟨rfl, field, found, member⟩
  · rintro ⟨rfl, field, found, member⟩
    exact ⟨name, field, found, target, member, rfl, rfl, rfl⟩

namespace Sequence

def Holds (sequence : Sequence) (coupling : Coupling) (fields : PerField Field) : Prop :=
  ∃ pulses ∈ sequence.plains, ∃ pulse, pulses.get? coupling = some pulse ∧ fields ∈ pulse.plains

theorem mem_channel_uses_iff (sequence : Sequence) (channel : Channel) :
    (channel ∈ sequence.plains.flatMap fun pulses =>
      pulses.entries.flatMap fun entry => entry.2.channels entry.1) ↔
      ∃ fields, sequence.Holds channel.coupling fields ∧
        fields.Modulates channel.field channel.target := by
  simp only [Holds, List.mem_flatMap, Prod.exists, PerCoupling.mem_entries_iff, Pulse.channels,
    PerField.mem_channels_iff]
  constructor
  · rintro ⟨pulses, pulsesMember, _, pulse, found, fields, fieldsMember, rfl, modulates⟩
    exact ⟨fields, ⟨pulses, pulsesMember, pulse, found, fieldsMember⟩, modulates⟩
  · rintro ⟨fields, ⟨pulses, pulsesMember, pulse, found, fieldsMember⟩, modulates⟩
    exact ⟨pulses, pulsesMember, _, pulse, found, fields, fieldsMember, rfl, modulates⟩

variable {sequence : Sequence}

/-- A modulation that is used anywhere has an equal among the channels of a sequence. -/
theorem exists_channel {coupling : Coupling} {fields : PerField Field}
    (holds : sequence.Holds coupling fields) {name : FieldName} {target : Modulation}
    (modulates : fields.Modulates name target) :
    ∃ channel ∈ sequence.channels, channel.coupling = coupling ∧ channel.field = name ∧
      target.same channel.target = true := by
  obtain ⟨channel, member, equal⟩ := Channel.exists_unique_same _
    ((mem_channel_uses_iff sequence ⟨coupling, name, target⟩).2 ⟨fields, holds, modulates⟩)
  obtain ⟨sameCoupling, sameField, sameTarget⟩ := (Channel.same_iff _ _).1 equal
  exact ⟨channel, member, sameCoupling.symm, sameField.symm, sameTarget⟩

theorem exists_use {channel : Channel} (member : channel ∈ sequence.channels) :
    ∃ fields, sequence.Holds channel.coupling fields ∧
      fields.Modulates channel.field channel.target :=
  (mem_channel_uses_iff sequence channel).1 (Channel.mem_of_unique member)

variable {good : Scalar → Prop}

theorem holds_each (each : sequence.EachScalar good) {coupling : Coupling}
    {fields : PerField Field} (holds : sequence.Holds coupling fields) :
    fields.EachDrive (Drive.Each good) := by
  obtain ⟨pulses, pulsesMember, pulse, found, member⟩ := holds
  exact (Each.plains sequence each pulses pulsesMember coupling pulse found).plains pulse fields
    member

theorem uses_each (each : sequence.EachScalar good) :
    ∀ channel ∈ sequence.plains.flatMap fun pulses =>
      pulses.entries.flatMap fun entry => entry.2.channels entry.1,
      channel.target.EachWeight good := by
  intro channel member
  obtain ⟨fields, holds, field, found, used⟩ := (mem_channel_uses_iff sequence channel).1 member
  obtain ⟨drive, driveMember, same⟩ := List.mem_map.1 used
  rw [← same]
  exact (holds_each each holds _ field found drive driveMember).target

theorem channels_each (each : sequence.EachScalar good) :
    ∀ channel ∈ sequence.channels, channel.target.EachWeight good := fun channel member =>
  uses_each each channel (Channel.mem_of_unique member)

theorem channels_distinct (tidied : sequence.EachScalar (·.tidy)) :
    sequence.channels.Pairwise fun earlier later => later.same earlier = false :=
  Channel.unique_distinct (uses_each tidied)

end Sequence

namespace Padding

theorem all_couplings_once : Coupling.all.Nodup := by decide

theorem all_names_once : FieldName.all.Nodup := by decide

theorem mem_all_couplings (coupling : Coupling) : coupling ∈ Coupling.all := by
  cases coupling <;> decide

theorem mem_all_names (name : FieldName) : name ∈ FieldName.all := by
  cases name <;> decide

def wanted (required : PerField (List Modulation)) (name : FieldName) : List Modulation :=
  (required.get? name).getD []

def EachTarget (good : Scalar → Prop) (required : PerField (List Modulation)) : Prop :=
  ∀ name, ∀ target ∈ wanted required name, target.EachWeight good

end Padding

namespace Requirements

open Padding

def of (requirements : Requirements) (coupling : Coupling) : PerField (List Modulation) :=
  (requirements.get? coupling).getD .empty

theorem mem_channels_iff (requirements : Requirements) (channel : Channel) :
    channel ∈ requirements.channels ↔
      channel.target ∈ wanted (requirements.of channel.coupling) channel.field := by
  obtain ⟨coupling, name, target⟩ := channel
  simp only [channels, List.mem_flatMap, Prod.exists, PerCoupling.mem_entries_iff,
    PerField.mem_entries_iff, List.mem_map, Channel.mk.injEq, of, wanted]
  constructor
  · rintro ⟨_, required, found, _, targets, isTargets, target, member, rfl, rfl, rfl⟩
    simpa [found, isTargets] using member
  · intro member
    cases found : requirements.get? coupling with
    | none => simp [found] at member
    | some required =>
        cases isTargets : required.get? name with
        | none => simp [found, isTargets] at member
        | some targets =>
            refine ⟨coupling, required, found, name, targets, isTargets, target, ?_, rfl, rfl, rfl⟩
            simpa [found, isTargets] using member

theorem targets_of_ne_nil (channels : List Channel) (coupling : Coupling) (name : FieldName) :
    targetsOf channels coupling name ≠ [] := by
  unfold targetsOf
  dsimp only
  split_ifs with none
  · simp
  · simpa using none

theorem mem_targets_of {channels : List Channel} {channel : Channel} (member : channel ∈ channels) :
    channel.target ∈ targetsOf channels channel.coupling channel.field := by
  have used : channel ∈ channels.filter fun other =>
      other.coupling == channel.coupling && other.field == channel.field :=
    List.mem_filter.2 ⟨member, by simp⟩
  unfold targetsOf
  dsimp only
  split_ifs with none
  · rw [List.isEmpty_iff.1 none] at used
    exact absurd used List.not_mem_nil
  · exact List.mem_map.2 ⟨channel, used, rfl⟩

theorem targets_of_each {good : Scalar → Prop} {channels : List Channel}
    (each : ∀ channel ∈ channels, channel.target.EachWeight good) (coupling : Coupling)
    (name : FieldName) :
    ∀ target ∈ targetsOf channels coupling name, target.EachWeight good := by
  unfold targetsOf
  dsimp only
  split_ifs
  · exact List.forall_mem_singleton.2 trivial
  · rw [List.forall_mem_map]
    exact fun channel member => each channel (List.mem_of_mem_filter member)

/-- A coupling in use has modulations for every field, any other coupling has none. -/
theorem wanted_of_channels (channels : List Channel) (coupling : Coupling) (name : FieldName) :
    wanted ((ofChannels channels).of coupling) name =
      if channels.any (·.coupling == coupling) then targetsOf channels coupling name else [] := by
  let entries := (Coupling.all.filter fun coupling => channels.any (·.coupling == coupling)).map
    fun coupling => (coupling, PerField.ofEntries (FieldName.all.map fun field =>
      (field, targetsOf channels coupling field)))
  have once : (entries.map Prod.fst).Nodup := by
    rw [List.map_map]
    exact (all_couplings_once.filter _).map fun _ _ same => same
  have get := PerCoupling.get_of_entries_iff entries once coupling
  unfold of wanted ofChannels
  split_ifs with used
  · have targets : (PerField.ofEntries (FieldName.all.map fun field =>
        (field, targetsOf channels coupling field))).get? name =
          some (targetsOf channels coupling name) := by
      rw [PerField.get_of_entries_iff]
      · exact List.mem_map.2 ⟨name, mem_all_names name, rfl⟩
      · rw [List.map_map]
        exact all_names_once.map fun _ _ same => same
    rw [(get _).2 (List.mem_map.2 ⟨coupling, List.mem_filter.2
      ⟨mem_all_couplings coupling, used⟩, rfl⟩), Option.getD_some, targets, Option.getD_some]
  · have missing : (PerCoupling.ofEntries entries).get? coupling = none := by
      rw [Option.eq_none_iff_forall_ne_some]
      intro required found
      obtain ⟨_, member, same⟩ := List.mem_map.1 ((get required).1 found)
      rw [Prod.mk.injEq] at same
      rw [← same.1] at used
      exact used (List.mem_filter.1 member).2
    rw [missing, Option.getD_none, PerField.get_empty, Option.getD_none]

theorem mem_wanted_of_channels {channels : List Channel} {channel : Channel}
    (member : channel ∈ channels) :
    channel.target ∈ wanted ((ofChannels channels).of channel.coupling) channel.field := by
  rw [wanted_of_channels, if_pos (List.any_eq_true.2 ⟨channel, member, by simp⟩)]
  exact mem_targets_of member

/-- If something is required of one field of a coupling, then something is of every field. -/
theorem wanted_every_field {channels : List Channel} {coupling : Coupling} {name : FieldName}
    (someWanted : wanted ((ofChannels channels).of coupling) name ≠ []) (other : FieldName) :
    wanted ((ofChannels channels).of coupling) other ≠ [] := by
  rw [wanted_of_channels] at someWanted ⊢
  split_ifs at someWanted ⊢ with used
  · exact targets_of_ne_nil channels coupling other
  · exact someWanted

theorem of_channels_each {good : Scalar → Prop} {channels : List Channel}
    (each : ∀ channel ∈ channels, channel.target.EachWeight good) (coupling : Coupling) :
    EachTarget good ((ofChannels channels).of coupling) := by
  intro name target member
  rw [wanted_of_channels] at member
  split_ifs at member
  · exact targets_of_each each coupling name target member
  · exact absurd member List.not_mem_nil

end Requirements

theorem PerField.get_of_named {α : Type} {names : List FieldName} {work : FieldName → Outcome α}
    {entries : List (FieldName × α)} (once : names.Nodup)
    (worked : names.mapM (fun name => do
      let value ← work name
      return (name, value)) = .ok entries) (name : FieldName) (value : α) :
    (ofEntries entries).get? name = some value ↔ name ∈ names ∧ work name = .ok value := by
  have related : List.Forall₂ (fun name entry => entry.1 = name ∧ work name = .ok entry.2) names
      entries := by
    refine ((Outcome.mapM_ok_iff _ _ _).1 worked).imp fun name entry made => ?_
    obtain ⟨value, valueOk, same⟩ := (Outcome.bind_ok_iff _ _ _).1 made
    rw [Outcome.pure_ok_iff] at same
    subst same
    exact ⟨rfl, valueOk⟩
  have keys : entries.map Prod.fst = names := by
    rw [Outcome.map_eq_of_related related fun _ _ made => made.1, List.map_id']
  rw [get_of_entries_iff entries (keys ▸ once)]
  constructor
  · intro member
    obtain ⟨source, sourceMember, same, sourceOk⟩ := Outcome.source_of_mem related member
    obtain rfl : name = source := same
    exact ⟨sourceMember, sourceOk⟩
  · rintro ⟨member, valueOk⟩
    obtain ⟨⟨_, made⟩, entryMember, same, madeOk⟩ := Outcome.target_of_mem related member
    subst same
    rw [valueOk, Except.ok.injEq] at madeOk
    exact madeOk ▸ entryMember

namespace Waveform

variable {bindings : ScalarBindings} {good : Scalar → Prop}

theorem alignment_duration (waveform : Waveform) :
    waveform.alignment?.1.duration bindings = waveform.duration bindings := by
  cases waveform <;> rfl

theorem alignment_each {waveform : Waveform} (each : waveform.Each good) :
    waveform.alignment?.1.Each good ∧ ∀ advice ∈ waveform.alignment?.2,
      ∀ scalar ∈ advice.2.scalars, good scalar := by
  cases waveform with
  | aligned inner alignment fill =>
      obtain ⟨own, inside⟩ := (each_iff _).1 each
      refine ⟨inside inner (by simp [children]), ?_⟩
      rintro _ ⟨⟩
      exact own
  | _ => exact ⟨each, by simp [alignment?]⟩

theorem constant_each {value length : Scalar} (valueGood : good value) (lengthGood : good length) :
    (constant value length).Each good := by
  rw [each_iff]
  simpa [scalars, children] using ⟨valueGood, lengthGood⟩

theorem append_each {parts : List Waveform} (each : ∀ part ∈ parts, part.Each good) :
    (append parts).Each good := by
  rw [each_iff]
  exact ⟨by simp [scalars], each⟩

theorem add_each {left right : Waveform} (leftEach : left.Each good) (rightEach : right.Each good) :
    (add left right).Each good := by
  rw [each_iff]
  simpa [scalars, children] using ⟨leftEach, rightEach⟩

theorem constant_lasts {value : Scalar} {length : Decimal} (nonneg : 0 ≤ length) :
    (constant value (.literal length)).duration bindings = .ok length := by
  rw [duration, leaf_duration_ok_iff]
  exact ⟨rfl, nonneg⟩

theorem append_pair_lasts {first second : Waveform} {length other total : Decimal}
    (firstLasts : first.duration bindings = .ok length)
    (secondLasts : second.duration bindings = .ok other) (sum : length + other = total) :
    (append [first, second]).duration bindings = .ok total := by
  rw [duration, total_duration_ok_iff]
  exact ⟨[length, other], by simp [firstLasts, secondLasts], by simp [sum]⟩

variable [Natives]

theorem fill_resolve_each {fill : FillValue} {inner : Waveform} {length : Decimal} {value : Scalar}
    (literal : ∀ number, good (.literal number)) (each : ∀ scalar ∈ fill.scalars, good scalar)
    (resolved : fill.resolve bindings inner length = .ok value) : good value := by
  cases fill with
  | explicit given =>
      rw [FillValue.resolve, Except.ok.injEq] at resolved
      exact resolved ▸ each given (by simp [FillValue.scalars])
  | boundary side =>
      cases side <;>
      · simp only [FillValue.resolve, Outcome.bind_ok_iff, Outcome.pure_ok_iff] at resolved
        obtain ⟨number, _, rfl⟩ := resolved
        exact literal number

/-- A padded waveform lasts as long as it should, unless it was too long to begin with. -/
theorem pad_ok {target : Decimal} {waveform result : Waveform}
    (literal : ∀ number, good (.literal number)) (each : waveform.Each good)
    (padded : waveform.pad bindings target = .ok result) :
    result.Each good ∧ ∀ current, waveform.duration bindings = .ok current → current ≤ target →
      result.duration bindings = .ok target := by
  obtain ⟨innerEach, adviceEach⟩ := alignment_each each
  have sameDuration := @alignment_duration bindings waveform
  unfold pad at padded
  generalize waveform.alignment? = given at *
  obtain ⟨inner, advice⟩ := given
  obtain ⟨length, lengthOk, padded⟩ := (Outcome.bind_ok_iff _ _ _).1 padded
  have innerLasts : ∀ current, waveform.duration bindings = .ok current → current = length := by
    intro current currentOk
    rw [← sameDuration, lengthOk, Except.ok.injEq] at currentOk
    exact currentOk.symm
  dsimp only at *
  split_ifs at padded with remains
  · rw [Outcome.pure_ok_iff] at padded
    subst padded
    refine ⟨innerEach, fun current currentOk short => ?_⟩
    obtain rfl := innerLasts current currentOk
    rw [Bool.not_eq_true', Decimal.is_positive_false_iff, sub_nonpos] at remains
    rw [lengthOk, le_antisymm short remains]
  · have positive : 0 < target - length := by simpa using remains
    have remainderGood := literal (target - length)
    split at padded
    · rw [Outcome.pure_ok_iff] at padded
      subst padded
      refine ⟨append_each ?_, fun current currentOk _ => ?_⟩
      · simpa using ⟨innerEach, constant_each (literal 0) remainderGood⟩
      · exact append_pair_lasts lengthOk (constant_lasts positive.le) (add_sub_cancel length target)
    case h_2 _ side fill _ =>
        obtain ⟨value, valueOk, padded⟩ := (Outcome.bind_ok_iff _ _ _).1 padded
        have valueGood := fill_resolve_each literal (adviceEach _ rfl) valueOk
        have paddingEach := constant_each valueGood remainderGood
        cases side with
        | left =>
            rw [Outcome.pure_ok_iff] at padded
            subst padded
            refine ⟨append_each (by simpa using ⟨innerEach, paddingEach⟩), fun _ _ _ => ?_⟩
            exact append_pair_lasts lengthOk (constant_lasts positive.le) (add_sub_cancel length target)
        | right =>
            rw [Outcome.pure_ok_iff] at padded
            subst padded
            refine ⟨append_each (by simpa using ⟨paddingEach, innerEach⟩), fun _ _ _ => ?_⟩
            exact append_pair_lasts (constant_lasts positive.le) lengthOk
              (sub_add_cancel target length)

end Waveform

def PerField.drivesOf (fields : PerField Field) (name : FieldName) : List Drive :=
  ((fields.get? name).map (·.drives)).getD []

theorem PerField.modulates_iff (fields : PerField Field) (name : FieldName) (target : Modulation) :
    fields.Modulates name target ↔ ∃ drive ∈ fields.drivesOf name, drive.target = target := by
  unfold Modulates drivesOf
  cases fields.get? name <;> simp [Field.targets]

theorem PerField.mem_drives_of {fields : PerField Field} {name : FieldName} {drive : Drive}
    (member : drive ∈ fields.drivesOf name) :
    ∃ field, fields.get? name = some field ∧ drive ∈ field.drives := by
  unfold drivesOf at member
  cases found : fields.get? name with
  | none => simp [found] at member
  | some field => exact ⟨field, rfl, by simpa [found] using member⟩

def PerField.Within (fields : PerField Field) (required : PerField (List Modulation)) : Prop :=
  ∀ name target, fields.Modulates name target →
    ∃ wanted ∈ Padding.wanted required name, target.same wanted = true

/-- The modulations of a plain pulse are those that are required, up to equality. -/
structure PerField.Covers (fields : PerField Field) (required : PerField (List Modulation)) :
    Prop where
  within : fields.Within required
  reached : ∀ name, ∀ wanted ∈ Padding.wanted required name,
    ∃ target, fields.Modulates name target ∧ target.same wanted = true

/-- All drives of a plain pulse last equally long, and in no field does a modulation come back. -/
structure PerField.Level (bindings : ScalarBindings) (fields : PerField Field) : Prop where
  even : fields.Even bindings
  apart : fields.Apart

theorem PerField.within_empty (required : PerField (List Modulation)) : empty.Within required := by
  rintro name target ⟨field, found, _⟩
  simp at found

namespace Padding

variable {bindings : ScalarBindings} {good : Scalar → Prop}

theorem longest_drive_ok {drives : List Drive} {length : Decimal}
    (longest : longestDrive bindings drives = .ok length) :
    0 ≤ length ∧ ∀ drive ∈ drives, ∃ current,
      drive.waveform.duration bindings = .ok current ∧ current ≤ length := by
  induction drives generalizing length with
  | nil =>
      rw [longestDrive, Except.ok.injEq] at longest
      exact ⟨longest ▸ le_rfl, by simp⟩
  | cons drive rest ih =>
      simp only [longestDrive, Outcome.bind_ok_iff, Outcome.pure_ok_iff] at longest
      obtain ⟨first, firstOk, others, othersOk, rfl⟩ := longest
      obtain ⟨nonneg, each⟩ := ih othersOk
      refine ⟨le_max_of_le_right nonneg, List.forall_mem_cons.2 ⟨?_, fun other member => ?_⟩⟩
      · exact ⟨first, firstOk, le_max_left _ _⟩
      · obtain ⟨current, currentOk, short⟩ := each other member
        exact ⟨current, currentOk, le_max_of_le_right short⟩

/-- A drive with good scalars that lasts for the given time. -/
structure Lasting (good : Scalar → Prop) (bindings : ScalarBindings) (length : Decimal)
    (drive : Drive) : Prop where
  each : drive.Each good
  lasts : drive.waveform.duration bindings = .ok length

theorem of_drives_lasting {length : Decimal} {drives : List Drive}
    (each : ∀ drive ∈ drives, Lasting good bindings length drive) :
    ∀ drive ∈ (Field.ofDrives drives).drives, Lasting good bindings length drive := by
  apply Field.of_drives_each _ each
  intro first second firstLasting secondLasting _
  constructor
  · exact ⟨firstLasting.each.target,
      Waveform.add_each firstLasting.each.waveform secondLasting.each.waveform⟩
  · exact (Waveform.add_duration_ok_iff _ _ _).2
      ⟨length, length, firstLasting.lasts, secondLasting.lasts, (max_self length).symm⟩

section

variable (literal : ∀ number, good (.literal number))
include literal

theorem zero_drives_lasting {length : Decimal} {targets : List Modulation} (nonneg : 0 ≤ length)
    (each : ∀ target ∈ targets, target.EachWeight good) :
    ∀ drive ∈ zeroDrives length targets, Lasting good bindings length drive := by
  rw [zeroDrives, List.forall_mem_map]
  exact fun target member => ⟨⟨each target member,
    Waveform.constant_each (literal 0) (literal length)⟩, Waveform.constant_lasts nonneg⟩

variable [Natives]

theorem field_lasting {length : Decimal} {targets : List Modulation} {drives : List Drive}
    {result : Field} (nonneg : 0 ≤ length)
    (targetsEach : ∀ target ∈ targets, target.EachWeight good)
    (each : ∀ drive ∈ drives, drive.Each good)
    (short : ∀ drive ∈ drives, ∃ current,
      drive.waveform.duration bindings = .ok current ∧ current ≤ length)
    (padded : field bindings length targets drives = .ok result) :
    ∀ drive ∈ result.drives, Lasting good bindings length drive := by
  obtain ⟨extended, worked, made⟩ := (Outcome.bind_ok_iff _ _ _).1 padded
  rw [Outcome.pure_ok_iff] at made
  subst made
  rw [Outcome.mapM_ok_iff] at worked
  apply of_drives_lasting
  refine List.forall_mem_append.2 ⟨fun drive member => ?_, ?_⟩
  · obtain ⟨source, sourceMember, sourceOk⟩ := Outcome.source_of_mem worked member
    obtain ⟨waveform, waveformOk, same⟩ := (Outcome.bind_ok_iff _ _ _).1 sourceOk
    rw [Outcome.pure_ok_iff] at same
    subst same
    have sourceEach := each source sourceMember
    obtain ⟨current, currentOk, bound⟩ := short source sourceMember
    obtain ⟨waveformEach, lasts⟩ := Waveform.pad_ok literal sourceEach.waveform waveformOk
    exact ⟨⟨sourceEach.target, waveformEach⟩, lasts current currentOk bound⟩
  · exact zero_drives_lasting literal nonneg fun target member =>
      targetsEach target (List.mem_of_mem_filter member)

end

/-- A padded field has the modulations of its drives and those that are required. -/
theorem field_targets [Natives] {length : Decimal} {targets : List Modulation} {drives : List Drive}
    {result : Field} (padded : field bindings length targets drives = .ok result) :
    Field.Apart result.drives ∧
      (∀ target ∈ result.targets, (∃ drive ∈ drives, drive.target = target) ∨ target ∈ targets) ∧
      ∀ target ∈ targets, ∃ kept ∈ result.targets, kept.same target = true := by
  obtain ⟨extended, worked, made⟩ := (Outcome.bind_ok_iff _ _ _).1 padded
  rw [Outcome.pure_ok_iff] at made
  subst made
  have related : List.Forall₂ (fun drive longer => longer.target = drive.target) drives extended := by
    refine ((Outcome.mapM_ok_iff _ _ _).1 worked).imp fun drive longer longerOk => ?_
    obtain ⟨waveform, _, same⟩ := (Outcome.bind_ok_iff _ _ _).1 longerOk
    rw [Outcome.pure_ok_iff] at same
    rw [← same]
  obtain ⟨sources, reached⟩ := Field.of_drives_targets (extended ++ zeroDrives length
    (targets.filter fun target => !drives.any (·.target.same target)))
  refine ⟨Field.of_drives_apart _, fun target member => ?_, fun target member => ?_⟩
  · obtain ⟨source, sourceMember, rfl⟩ := sources target member
    rcases List.mem_append.1 sourceMember with given | zero
    · obtain ⟨drive, driveMember, same⟩ := Outcome.source_of_mem related given
      exact Or.inl ⟨drive, driveMember, same.symm⟩
    · obtain ⟨missing, missingMember, rfl⟩ := List.mem_map.1 zero
      exact Or.inr (List.mem_of_mem_filter missingMember)
  · by_cases driven : drives.any (·.target.same target) = true
    · obtain ⟨drive, driveMember, equal⟩ := List.any_eq_true.1 driven
      obtain ⟨longer, longerMember, same⟩ := Outcome.target_of_mem related driveMember
      obtain ⟨kept, keptMember, keptEqual⟩ := reached longer (by simp [longerMember])
      rw [same] at keptEqual
      exact ⟨kept, keptMember, Modulation.same_trans keptEqual equal⟩
    · refine reached ⟨target, .zero (.literal length)⟩ (List.mem_append_right _ ?_)
      exact List.mem_map.2 ⟨target, List.mem_filter.2 ⟨member, by simpa using driven⟩, rfl⟩

variable {required : PerField (List Modulation)}

theorem plain_pulse_fields [Natives] {fields result : PerField Field}
    (padded : plainPulse bindings required fields = .ok result) :
    ∃ length, longestDrive bindings (fields.entries.flatMap (·.2.drives)) = .ok length ∧
      (∀ name made, result.get? name = some made →
        field bindings length (wanted required name) (fields.drivesOf name) = .ok made) ∧
      ∀ name, (fields.get? name).isSome ∨ wanted required name ≠ [] →
        ∃ made, result.get? name = some made := by
  obtain ⟨length, longest, padded⟩ := (Outcome.bind_ok_iff _ _ _).1 padded
  obtain ⟨entries, each, made⟩ := (Outcome.bind_ok_iff _ _ _).1 padded
  rw [Outcome.pure_ok_iff] at made
  subst made
  have get := PerField.get_of_named (all_names_once.filter _) each
  refine ⟨length, longest, fun name field isField => ((get name field).1 isField).2,
    fun name used => ?_⟩
  have inUse : name ∈ FieldName.all.filter fun name =>
      (fields.get? name).isSome || (required.get? name).isSome := by
    refine List.mem_filter.2 ⟨mem_all_names name, ?_⟩
    unfold wanted at used
    cases found : required.get? name with
    | none => simpa [found] using used
    | some targets => simp
  rw [Outcome.mapM_ok_iff] at each
  obtain ⟨entry, _, worked⟩ := Outcome.target_of_mem each inUse
  obtain ⟨field, fieldOk, _⟩ := (Outcome.bind_ok_iff _ _ _).1 worked
  exact ⟨field, (get name field).2 ⟨inUse, fieldOk⟩⟩

theorem plain_pulse_lasting [Natives] {fields result : PerField Field}
    (literal : ∀ number, good (.literal number)) (targetsEach : EachTarget good required)
    (each : fields.EachDrive (Drive.Each good))
    (padded : plainPulse bindings required fields = .ok result) :
    ∃ length, result.EachDrive (Lasting good bindings length) := by
  obtain ⟨length, longest, made, _⟩ := plain_pulse_fields padded
  obtain ⟨nonneg, short⟩ := longest_drive_ok longest
  refine ⟨length, fun name field found => ?_⟩
  refine field_lasting literal nonneg (targetsEach name) (fun drive member => ?_)
    (fun drive member => ?_) (made name field found)
  · obtain ⟨given, givenFound, inside⟩ := PerField.mem_drives_of member
    exact each name given givenFound drive inside
  · obtain ⟨given, givenFound, inside⟩ := PerField.mem_drives_of member
    exact short drive (List.mem_flatMap.2
      ⟨(name, given), (fields.mem_entries_iff _ _).2 givenFound, inside⟩)

theorem plain_pulse_targets [Natives] {fields result : PerField Field}
    (within : fields.Within required) (padded : plainPulse bindings required fields = .ok result) :
    result.Apart ∧ result.Covers required := by
  obtain ⟨length, _, made, present⟩ := plain_pulse_fields padded
  refine ⟨fun name field found => (field_targets (made name field found)).1, ?_, ?_⟩
  · rintro name target ⟨field, found, member⟩
    rcases (field_targets (made name field found)).2.1 target member with given | asked
    · exact within name target ((fields.modulates_iff name target).2 given)
    · exact ⟨target, asked, target.same_refl⟩
  · intro name target member
    obtain ⟨field, found⟩ := present name (Or.inr (List.ne_nil_of_mem member))
    obtain ⟨kept, keptMember, equal⟩ := (field_targets (made name field found)).2.2 target member
    exact ⟨kept, ⟨field, found, keptMember⟩, equal⟩

end Padding

theorem slice_of_nothing {start stop : Option Decimal} {length : Decimal}
    (sliced : sliceLength 0 start stop = .ok length) : length = 0 := by
  obtain ⟨⟨early, ordered, late⟩, same⟩ := (Waveform.slice_length_ok_iff _ _ _ _).1 sliced
  rw [same, le_antisymm late (early.trans ordered), zero_sub, neg_eq_zero]
  exact le_antisymm (ordered.trans late) early

namespace Pulse

def Undriven (pulse : Pulse) : Prop :=
  ∀ fields ∈ pulse.plains, ∀ name, ¬fields.Drives name

theorem undriven_duration {bindings : ScalarBindings} (pulse : Pulse) (length : Decimal)
    (undriven : pulse.Undriven) (evaluates : pulse.symbolicDuration.eval bindings = .ok length) :
    length = 0 := by
  unfold Undriven at undriven
  induction pulse using Pulse.parts_induction generalizing length with
  | plain fields =>
      have known := @PerField.plain_duration_zero bindings fields (undriven fields (by simp [plains]))
      rw [symbolicDuration, known.evaluates, Except.ok.injEq] at evaluates
      exact evaluates.symm
  | append parts ih =>
      obtain ⟨values, each, rfl⟩ := (append_duration_ok_iff parts length).1 evaluates
      apply List.sum_eq_zero
      intro value member
      obtain ⟨part, partMember, valueOk⟩ := Outcome.source_of_mem each member
      refine ih part partMember value (fun fields found => undriven fields ?_) valueOk
      rw [plains, mem_plains_all]
      exact ⟨part, partMember, found⟩
  | slice inner interval ih =>
      obtain ⟨extent, start, stop, extentOk, _, _, lengthOk⟩ :=
        (Scalar.eval_slice_ok_iff _ _ _ _).1 evaluates
      rw [ih extent undriven extentOk] at lengthOk
      exact slice_of_nothing lengthOk
  | named name inner ih => exact ih length undriven evaluates

end Pulse

namespace Padding

variable {bindings : ScalarBindings} {good : Scalar → Prop} {required : PerField (List Modulation)}
  {total length : Decimal} {padded : Pulse}

theorem extend_cases (required : PerField (List Modulation)) (padded : Pulse)
    (total length : Decimal) :
    total ≤ length ∧ extend total required padded length = padded ∨
      length < total ∧ extend total required padded length =
        .append [padded, .plain (required.map fun targets =>
          .ofDrives (zeroDrives (total - length) targets))] := by
  unfold extend
  dsimp only
  split_ifs with remains
  · exact Or.inr ⟨sub_pos.1 ((Decimal.is_positive_iff _).1 remains), rfl⟩
  · rw [Decimal.is_positive_iff, not_lt, sub_nonpos] at remains
    exact Or.inl ⟨remains, rfl⟩

theorem zero_fields_lasting (literal : ∀ number, good (.literal number)) (nonneg : 0 ≤ length)
    (targetsEach : EachTarget good required) :
    (required.map fun targets => Field.ofDrives (zeroDrives length targets)).EachDrive
      (Lasting good bindings length) := by
  intro name field found
  rw [PerField.get_map, Option.map_eq_some_iff] at found
  obtain ⟨targets, targetsFound, rfl⟩ := found
  refine of_drives_lasting (zero_drives_lasting literal nonneg fun target member => ?_)
  exact targetsEach name target (by rwa [wanted, targetsFound])

theorem zero_fields_targets (length : Decimal) (required : PerField (List Modulation)) :
    (required.map fun targets => Field.ofDrives (zeroDrives length targets)).Apart ∧
      (required.map fun targets => Field.ofDrives (zeroDrives length targets)).Covers required := by
  refine ⟨fun name field found => ?_, fun name target modulates => ?_, fun name target member => ?_⟩
  · rw [PerField.get_map, Option.map_eq_some_iff] at found
    obtain ⟨targets, _, rfl⟩ := found
    exact Field.of_drives_apart _
  · obtain ⟨field, found, member⟩ := modulates
    rw [PerField.get_map, Option.map_eq_some_iff] at found
    obtain ⟨targets, targetsFound, rfl⟩ := found
    obtain ⟨drive, driveMember, rfl⟩ := (Field.of_drives_targets _).1 target member
    obtain ⟨asked, askedMember, rfl⟩ := List.mem_map.1 driveMember
    exact ⟨asked, by rwa [wanted, targetsFound], asked.same_refl⟩
  · cases targetsFound : required.get? name with
    | none => simp [wanted, targetsFound] at member
    | some targets =>
        rw [wanted, targetsFound, Option.getD_some] at member
        obtain ⟨kept, keptMember, equal⟩ := (Field.of_drives_targets (zeroDrives length targets)).2
          ⟨target, .zero (.literal length)⟩ (List.mem_map.2 ⟨target, member, rfl⟩)
        exact ⟨kept, ⟨_, by rw [PerField.get_map, targetsFound]; rfl, keptMember⟩, equal⟩

theorem extend_each (literal : ∀ number, good (.literal number))
    (targetsEach : EachTarget good required) (each : padded.EachScalar good) :
    (extend total required padded length).EachScalar good := by
  rcases extend_cases required padded total length with ⟨_, same⟩ | ⟨short, same⟩
  · rw [same]
    exact each
  · have zeros := @zero_fields_lasting .empty _ _ _ literal (sub_pos.2 short).le targetsEach
    rw [same, Pulse.EachScalar, Pulse.each_append_iff]
    exact List.forall_mem_cons.2 ⟨each, List.forall_mem_singleton.2 (zeros.mono fun _ drive => drive.each)⟩

theorem mem_extend_plains {fields : PerField Field} :
    fields ∈ (extend total required padded length).plains ↔ fields ∈ padded.plains ∨
      length < total ∧ fields = required.map fun targets =>
        .ofDrives (zeroDrives (total - length) targets) := by
  rcases extend_cases required padded total length with ⟨long, same⟩ | ⟨short, same⟩
  · simp [same, not_lt.2 long]
  · simp [same, Pulse.plains, Pulse.plainsAll, short]

/-- A pulse of which something is required is extended to the whole duration. -/
theorem extend_lasts (family : Scalar.Family good) (targetsEach : EachTarget good required)
    {name : FieldName} (someWanted : wanted required name ≠ [])
    (evaluates : padded.symbolicDuration.eval bindings = .ok length) (notLonger : length ≤ total) :
    (extend total required padded length).symbolicDuration.eval bindings = .ok total := by
  rcases extend_cases required padded total length with ⟨long, same⟩ | ⟨short, same⟩
  · rw [same, le_antisymm long notLonger]
    exact evaluates
  · have zeros := @zero_fields_lasting bindings _ _ _ family.literal (sub_pos.2 short).le targetsEach
    obtain ⟨target, member⟩ := List.exists_mem_of_ne_nil _ someWanted
    obtain ⟨kept, modulates, _⟩ :=
      (zero_fields_targets (total - length) required).2.reached name target member
    have known := PerField.plain_duration_known
      (zeros.mono fun _ drive => drive.each.waveform.mono family.tidied)
      (zeros.mono fun _ drive => drive.lasts) ⟨name, (PerField.drives_iff _ _).2 ⟨kept, modulates⟩⟩
    rw [same]
    refine (Pulse.append_duration_ok_iff _ _).2 ⟨[length, total - length], ?_, by simp⟩
    exact List.Forall₂.cons evaluates (List.Forall₂.cons known.evaluates List.Forall₂.nil)

variable [Natives]

theorem pulses_ok_iff (parts results : List Pulse) :
    pulses bindings required parts = .ok results ↔
      List.Forall₂ (fun part result => pulse bindings required part = .ok result) parts results := by
  have asMap : pulses bindings required parts = parts.mapM (pulse bindings required) := by
    induction parts with
    | nil => rfl
    | cons part rest ih => rw [pulses, List.mapM_cons, ih]
  rw [asMap, Outcome.mapM_ok_iff]

theorem pulse_plains (given result : Pulse) (succeeds : pulse bindings required given = .ok result) :
    List.Forall₂ (fun source fields => plainPulse bindings required source = .ok fields)
      given.plains result.plains := by
  induction given using Pulse.parts_induction generalizing result with
  | plain fields =>
      simp only [pulse, Outcome.bind_ok_iff, Outcome.pure_ok_iff] at succeeds
      obtain ⟨fields', fieldsOk, rfl⟩ := succeeds
      exact List.Forall₂.cons fieldsOk List.Forall₂.nil
  | append parts ih =>
      simp only [pulse, Outcome.bind_ok_iff, Outcome.pure_ok_iff] at succeeds
      obtain ⟨parts', partsOk, rfl⟩ := succeeds
      rw [pulses_ok_iff] at partsOk
      rw [Pulse.plains, Pulse.plains]
      -- The plain pulses of the parts follow each other as the parts do.
      induction partsOk with
      | nil => exact List.Forall₂.nil
      | cons partOk _ restIh =>
          rw [Pulse.plainsAll, Pulse.plainsAll]
          exact List.rel_append (ih _ (by simp) _ partOk)
            (restIh fun part member => ih part (by simp [member]))
  | slice inner interval ih =>
      simp only [pulse, Outcome.bind_ok_iff, Outcome.pure_ok_iff] at succeeds
      obtain ⟨inner', innerOk, rfl⟩ := succeeds
      exact ih inner' innerOk
  | named name inner ih =>
      simp only [pulse, Outcome.bind_ok_iff, Outcome.pure_ok_iff] at succeeds
      obtain ⟨inner', innerOk, rfl⟩ := succeeds
      exact ih inner' innerOk

theorem pulse_each (literal : ∀ number, good (.literal number))
    (targetsEach : EachTarget good required) (given result : Pulse) (each : given.EachScalar good)
    (succeeds : pulse bindings required given = .ok result) : result.EachScalar good := by
  unfold Pulse.EachScalar at *
  induction given using Pulse.parts_induction generalizing result with
  | plain fields =>
      simp only [pulse, Outcome.bind_ok_iff, Outcome.pure_ok_iff] at succeeds
      obtain ⟨fields', fieldsOk, rfl⟩ := succeeds
      obtain ⟨time, lasting⟩ := plain_pulse_lasting literal targetsEach each fieldsOk
      exact lasting.mono fun _ drive => drive.each
  | append parts ih =>
      simp only [pulse, Outcome.bind_ok_iff, Outcome.pure_ok_iff] at succeeds
      obtain ⟨parts', partsOk, rfl⟩ := succeeds
      rw [pulses_ok_iff] at partsOk
      rw [Pulse.each_append_iff] at each ⊢
      intro part' member
      obtain ⟨part, partMember, partOk⟩ := Outcome.source_of_mem partsOk member
      exact ih part partMember part' (each part partMember) partOk
  | slice inner interval ih =>
      simp only [pulse, Outcome.bind_ok_iff, Outcome.pure_ok_iff] at succeeds
      obtain ⟨inner', innerOk, rfl⟩ := succeeds
      exact ⟨ih inner' each.1 innerOk, each.2⟩
  | named name inner ih =>
      simp only [pulse, Outcome.bind_ok_iff, Outcome.pure_ok_iff] at succeeds
      obtain ⟨inner', innerOk, rfl⟩ := succeeds
      exact ih inner' each innerOk

/-- All plain pulses of a padded pulse are level and cover what is required. -/
theorem pulse_padded (literal : ∀ number, good (.literal number))
    (targetsEach : EachTarget good required) {given result : Pulse} (each : given.EachScalar good)
    (within : ∀ fields ∈ given.plains, fields.Within required)
    (succeeds : pulse bindings required given = .ok result) :
    ∀ fields ∈ result.plains, fields.Level bindings ∧ fields.Covers required := by
  intro fields member
  obtain ⟨source, sourceMember, fieldsOk⟩ :=
    Outcome.source_of_mem (pulse_plains given result succeeds) member
  obtain ⟨time, lasting⟩ := plain_pulse_lasting literal targetsEach
    (each.plains given source sourceMember) fieldsOk
  obtain ⟨apart, covers⟩ := plain_pulse_targets (within source sourceMember) fieldsOk
  exact ⟨⟨⟨time, lasting.mono fun _ drive => drive.lasts⟩, apart⟩, covers⟩

end Padding

/-- All plain pulses of a plain sequence are level, and its pulses last equally long where they
drive anything. -/
structure PerCoupling.Level (bindings : ScalarBindings) (pulses : PerCoupling Pulse) : Prop where
  plains : pulses.EachPulse fun pulse => ∀ fields ∈ pulse.plains, fields.Level bindings
  lasts : ∃ total, pulses.EachPulse fun pulse =>
    pulse.Undriven ∨ pulse.symbolicDuration.eval bindings = .ok total

/-- Every plain pulse of a plain sequence covers what is required of its coupling. -/
def PerCoupling.Covers (pulses : PerCoupling Pulse) (requirements : Requirements) : Prop :=
  ∀ coupling pulse, pulses.get? coupling = some pulse →
    ∀ fields ∈ pulse.plains, fields.Covers (requirements.of coupling)

namespace Padding

variable {bindings : ScalarBindings} {good : Scalar → Prop} {requirements : Requirements}

theorem le_fold_max {rows : List Decimal} (start : Decimal) :
    start ≤ rows.foldl max start ∧ ∀ row ∈ rows, row ≤ rows.foldl max start := by
  induction rows generalizing start with
  | nil => simp
  | cons first rest ih =>
      rw [List.foldl_cons]
      obtain ⟨greater, each⟩ := ih (max start first)
      exact ⟨(le_max_left _ _).trans greater, List.forall_mem_cons.2
        ⟨(le_max_right _ _).trans greater, each⟩⟩

def givenPulse (pulses : PerCoupling Pulse) (coupling : Coupling) : Pulse :=
  (pulses.get? coupling).getD (.plain .empty)

theorem given_pulse_each {pulses : PerCoupling Pulse} (each : pulses.EachPulse (·.EachScalar good))
    (coupling : Coupling) : (givenPulse pulses coupling).EachScalar good := by
  unfold givenPulse
  cases found : pulses.get? coupling with
  | none => exact PerField.each_drive_empty
  | some given => exact each coupling given found

variable [Natives]

/-- One row for every coupling, with what is required of it, its padded pulse and the duration of
that. -/
theorem rows_ok {pulses : PerCoupling Pulse} {couplings : List Coupling}
    {rows : List (Coupling × PerField (List Modulation) × Pulse × Decimal)}
    (worked : couplings.mapM (fun coupling => do
      let required := (requirements.get? coupling).getD .empty
      let given := (pulses.get? coupling).getD (.plain .empty)
      let result ← pulse bindings required given
      let duration ← result.symbolicDuration.eval bindings
      return (coupling, required, result, duration)) = .ok rows) :
    List.Forall₂ (fun coupling row => row.1 = coupling ∧ row.2.1 = requirements.of coupling ∧
      pulse bindings (requirements.of coupling) (givenPulse pulses coupling) = .ok row.2.2.1 ∧
      row.2.2.1.symbolicDuration.eval bindings = .ok row.2.2.2) couplings rows := by
  refine ((Outcome.mapM_ok_iff _ _ _).1 worked).imp fun coupling row made => ?_
  obtain ⟨result, resultOk, made⟩ := (Outcome.bind_ok_iff _ _ _).1 made
  obtain ⟨length, lengthOk, same⟩ := (Outcome.bind_ok_iff _ _ _).1 made
  rw [Outcome.pure_ok_iff] at same
  subst same
  exact ⟨rfl, rfl, resultOk, lengthOk⟩

/-- What a padded plain sequence is made of: each pulse is padded and then extended to the longest
of them. -/
theorem plain_sequence_pulses {pulses result : PerCoupling Pulse}
    (succeeds : plainSequence bindings requirements pulses = .ok result) :
    ∃ total, (∀ coupling made, result.get? coupling = some made → ∃ padded length,
        pulse bindings (requirements.of coupling) (givenPulse pulses coupling) = .ok padded ∧
        padded.symbolicDuration.eval bindings = .ok length ∧ length ≤ total ∧
        made = extend total (requirements.of coupling) padded length) ∧
      ∀ coupling given, pulses.get? coupling = some given →
        ∃ made, result.get? coupling = some made := by
  obtain ⟨rows, worked, made⟩ := (Outcome.bind_ok_iff _ _ _).1 succeeds
  rw [Outcome.pure_ok_iff] at made
  subst made
  have related := rows_ok worked
  let total := rows.foldl (fun longest row => max longest row.2.2.2) 0
  have short : ∀ row ∈ rows, row.2.2.2 ≤ total := by
    intro row member
    have bound := (@le_fold_max (rows.map fun row => row.2.2.2) 0).2 row.2.2.2
      (List.mem_map.2 ⟨row, member, rfl⟩)
    rwa [List.foldl_map] at bound
  let entries := rows.map fun row => (row.1, extend total row.2.1 row.2.2.1 row.2.2.2)
  have keys : entries.map Prod.fst = Coupling.all.filter fun coupling =>
      (pulses.get? coupling).isSome || (requirements.get? coupling).isSome := by
    rw [List.map_map]
    exact (Outcome.map_eq_of_related related fun _ _ made => made.1).trans (List.map_id' _)
  have get := PerCoupling.get_of_entries_iff entries (keys ▸ all_couplings_once.filter _)
  refine ⟨total, fun coupling made found => ?_, fun coupling given found => ?_⟩
  · obtain ⟨row, rowMember, same⟩ := List.mem_map.1 ((get coupling made).1 found)
    obtain ⟨source, _, sameCoupling, sameRequired, rowOk, lengthOk⟩ :=
      Outcome.source_of_mem related rowMember
    rw [Prod.mk.injEq] at same
    obtain ⟨rfl, rfl⟩ := same
    rw [sameCoupling, sameRequired]
    exact ⟨row.2.2.1, row.2.2.2, rowOk, lengthOk, short row rowMember, rfl⟩
  · have inUse : coupling ∈ entries.map Prod.fst := by
      rw [keys]
      exact List.mem_filter.2 ⟨mem_all_couplings coupling, by simp [found]⟩
    obtain ⟨⟨_, made⟩, member, rfl⟩ := List.mem_map.1 inUse
    exact ⟨made, (get _ made).2 member⟩

theorem plain_sequence_each (literal : ∀ number, good (.literal number))
    (targetsEach : ∀ coupling, EachTarget good (requirements.of coupling))
    {pulses result : PerCoupling Pulse} (each : pulses.EachPulse (·.EachScalar good))
    (succeeds : plainSequence bindings requirements pulses = .ok result) :
    result.EachPulse (·.EachScalar good) := by
  obtain ⟨total, made, _⟩ := plain_sequence_pulses succeeds
  intro coupling pulse' found
  obtain ⟨padded, length, paddedOk, _, _, rfl⟩ := made coupling pulse' found
  exact extend_each literal (targetsEach coupling) (pulse_each literal (targetsEach coupling) _ _
    (given_pulse_each each coupling) paddedOk)

/-- The plain pulses of a padded plain sequence, given the modulations of which are all
required. -/
theorem plain_sequence_padded (family : Scalar.Family good)
    (targetsEach : ∀ coupling, EachTarget good (requirements.of coupling))
    {pulses result : PerCoupling Pulse} (each : pulses.EachPulse (·.EachScalar good))
    (within : ∀ coupling pulse, pulses.get? coupling = some pulse →
      ∀ fields ∈ pulse.plains, fields.Within (requirements.of coupling))
    (succeeds : plainSequence bindings requirements pulses = .ok result) :
    result.Level bindings ∧ result.Covers requirements := by
  obtain ⟨total, made, _⟩ := plain_sequence_pulses succeeds
  have givenWithin : ∀ coupling, ∀ fields ∈ (givenPulse pulses coupling).plains,
      fields.Within (requirements.of coupling) := by
    intro coupling fields member
    unfold givenPulse at member
    cases found : pulses.get? coupling with
    | none =>
        rw [found] at member
        rw [List.mem_singleton.1 member]
        exact PerField.within_empty _
    | some pulse' =>
        rw [found] at member
        exact within coupling pulse' found fields member
  have plains : ∀ coupling pulse', result.get? coupling = some pulse' → ∀ fields ∈ pulse'.plains,
      fields.Level bindings ∧ fields.Covers (requirements.of coupling) := by
    intro coupling pulse' found fields member
    obtain ⟨padded, length, paddedOk, _, _, rfl⟩ := made coupling pulse' found
    rcases mem_extend_plains.1 member with inside | ⟨short, rfl⟩
    · exact pulse_padded family.literal (targetsEach coupling) (given_pulse_each each coupling)
        (givenWithin coupling) paddedOk fields inside
    · have zeros := @zero_fields_lasting bindings _ _ _ family.literal (sub_pos.2 short).le
        (targetsEach coupling)
      obtain ⟨apart, covers⟩ := zero_fields_targets (total - length) (requirements.of coupling)
      exact ⟨⟨⟨_, zeros.mono fun _ drive => drive.lasts⟩, apart⟩, covers⟩
  refine ⟨⟨fun coupling pulse' found fields member => (plains coupling pulse' found fields member).1,
    total, fun coupling pulse' found => ?_⟩,
    fun coupling pulse' found fields member => (plains coupling pulse' found fields member).2⟩
  by_cases someWanted : ∃ name, wanted (requirements.of coupling) name ≠ []
  · obtain ⟨name, notEmpty⟩ := someWanted
    obtain ⟨padded, length, _, lengthOk, short, rfl⟩ := made coupling pulse' found
    exact Or.inr (extend_lasts family (targetsEach coupling) notEmpty lengthOk short)
  · left
    intro fields member name drives
    obtain ⟨target, modulates⟩ := (fields.drives_iff name).1 drives
    obtain ⟨asked, askedMember, _⟩ :=
      (plains coupling pulse' found fields member).2.within name target modulates
    exact someWanted ⟨name, List.ne_nil_of_mem askedMember⟩

theorem sequences_ok_iff (parts results : List Sequence) :
    sequences bindings requirements parts = .ok results ↔
      List.Forall₂ (fun part result => sequence bindings requirements part = .ok result) parts
        results := by
  have asMap : sequences bindings requirements parts =
      parts.mapM (sequence bindings requirements) := by
    induction parts with
    | nil => rfl
    | cons part rest ih => rw [sequences, List.mapM_cons, ih]
  rw [asMap, Outcome.mapM_ok_iff]

/-- Padding a sequence pads its plain sequences, each by itself. -/
theorem sequence_plains (given result : Sequence)
    (succeeds : sequence bindings requirements given = .ok result) :
    List.Forall₂ (fun source pulses => plainSequence bindings requirements source = .ok pulses)
      given.plains result.plains := by
  induction given using Sequence.parts_induction generalizing result with
  | plain pulses =>
      simp only [sequence, Outcome.bind_ok_iff, Outcome.pure_ok_iff] at succeeds
      obtain ⟨pulses', pulsesOk, rfl⟩ := succeeds
      exact List.Forall₂.cons pulsesOk List.Forall₂.nil
  | append parts ih =>
      simp only [sequence, Outcome.bind_ok_iff, Outcome.pure_ok_iff] at succeeds
      obtain ⟨parts', partsOk, rfl⟩ := succeeds
      rw [sequences_ok_iff] at partsOk
      rw [Sequence.plains, Sequence.plains]
      induction partsOk with
      | nil => exact List.Forall₂.nil
      | cons partOk _ restIh =>
          rw [Sequence.plainsAll, Sequence.plainsAll]
          exact List.rel_append (ih _ (by simp) _ partOk)
            (restIh fun part member => ih part (by simp [member]))
  | slice inner interval ih =>
      simp only [sequence, Outcome.bind_ok_iff, Outcome.pure_ok_iff] at succeeds
      obtain ⟨inner', innerOk, rfl⟩ := succeeds
      exact ih inner' innerOk
  | named name inner ih =>
      simp only [sequence, Outcome.bind_ok_iff, Outcome.pure_ok_iff] at succeeds
      obtain ⟨inner', innerOk, rfl⟩ := succeeds
      exact ih inner' innerOk

theorem sequence_each (literal : ∀ number, good (.literal number))
    (targetsEach : ∀ coupling, EachTarget good (requirements.of coupling))
    (given result : Sequence) (each : given.EachScalar good)
    (succeeds : sequence bindings requirements given = .ok result) : result.EachScalar good := by
  unfold Sequence.EachScalar at *
  induction given using Sequence.parts_induction generalizing result with
  | plain pulses =>
      simp only [sequence, Outcome.bind_ok_iff, Outcome.pure_ok_iff] at succeeds
      obtain ⟨pulses', pulsesOk, rfl⟩ := succeeds
      exact plain_sequence_each literal targetsEach each pulsesOk
  | append parts ih =>
      simp only [sequence, Outcome.bind_ok_iff, Outcome.pure_ok_iff] at succeeds
      obtain ⟨parts', partsOk, rfl⟩ := succeeds
      rw [sequences_ok_iff] at partsOk
      rw [Sequence.each_append_iff] at each ⊢
      intro part' member
      obtain ⟨part, partMember, partOk⟩ := Outcome.source_of_mem partsOk member
      exact ih part partMember part' (each part partMember) partOk
  | slice inner interval ih =>
      simp only [sequence, Outcome.bind_ok_iff, Outcome.pure_ok_iff] at succeeds
      obtain ⟨inner', innerOk, rfl⟩ := succeeds
      exact ⟨ih inner' each.1 innerOk, each.2⟩
  | named name inner ih =>
      simp only [sequence, Outcome.bind_ok_iff, Outcome.pure_ok_iff] at succeeds
      obtain ⟨inner', innerOk, rfl⟩ := succeeds
      exact ih inner' each innerOk

end Padding

def PerField.Complete (fields : PerField Field) : Prop :=
  ∀ name other, fields.Drives name → fields.Drives other

/-- What covers the requirements of some channels drives all fields of a coupling or none. -/
theorem PerField.Covers.complete {fields : PerField Field} {channels : List Channel}
    {coupling : Coupling} (covers : fields.Covers ((Requirements.ofChannels channels).of coupling)) :
    fields.Complete := by
  intro name other drives
  obtain ⟨target, modulates⟩ := (fields.drives_iff name).1 drives
  obtain ⟨asked, askedMember, _⟩ := covers.within name target modulates
  obtain ⟨wanted, wantedMember⟩ := List.exists_mem_of_ne_nil _
    (Requirements.wanted_every_field (List.ne_nil_of_mem askedMember) other)
  obtain ⟨kept, keptModulates, _⟩ := covers.reached other wanted wantedMember
  exact (fields.drives_iff other).2 ⟨kept, keptModulates⟩

namespace Sequence

variable {bindings : ScalarBindings} {good : Scalar → Prop} {sequence padded : Sequence}

/-- All modulations of a sequence are among those that its channels require. -/
theorem holds_within {coupling : Coupling} {fields : PerField Field}
    (holds : sequence.Holds coupling fields) :
    fields.Within ((Requirements.ofChannels sequence.channels).of coupling) := by
  intro name target modulates
  obtain ⟨channel, member, rfl, rfl, equal⟩ := exists_channel holds modulates
  exact ⟨channel.target, Requirements.mem_wanted_of_channels member, equal⟩

/-- A padded sequence is level, and covers the requirements of the channels of the given one. -/
theorem pad_ok [Natives] (family : Scalar.Family good) (each : sequence.EachScalar good)
    (succeeds : sequence.pad bindings = .ok padded) :
    padded.EachScalar good ∧ ∀ pulses ∈ padded.plains,
      pulses.Level bindings ∧ pulses.Covers (.ofChannels sequence.channels) := by
  have targetsEach := Requirements.of_channels_each (channels_each each)
  refine ⟨Padding.sequence_each family.literal targetsEach _ _ each succeeds, fun pulses member => ?_⟩
  obtain ⟨source, sourceMember, pulsesOk⟩ :=
    Outcome.source_of_mem (Padding.sequence_plains _ _ succeeds) member
  refine Padding.plain_sequence_padded family targetsEach
    (each.plains sequence source sourceMember) (fun coupling pulse found fields inside => ?_) pulsesOk
  exact holds_within ⟨source, sourceMember, pulse, found, inside⟩

/-- Where a sequence holds a plain pulse, the padded sequence holds it padded. -/
theorem pad_holds [Natives] (succeeds : sequence.pad bindings = .ok padded) {coupling : Coupling}
    {fields : PerField Field} (holds : sequence.Holds coupling fields) :
    ∃ made, padded.Holds coupling made ∧
      ∃ required, Padding.plainPulse bindings required fields = .ok made := by
  obtain ⟨source, sourceMember, pulse, found, member⟩ := holds
  obtain ⟨pulses, pulsesMember, pulsesOk⟩ :=
    Outcome.target_of_mem (Padding.sequence_plains _ _ succeeds) sourceMember
  obtain ⟨total, made, present⟩ := Padding.plain_sequence_pulses pulsesOk
  obtain ⟨pulse', found'⟩ := present coupling pulse found
  obtain ⟨inner, length, innerOk, _, _, rfl⟩ := made coupling pulse' found'
  rw [Padding.givenPulse, found] at innerOk
  obtain ⟨fields', member', fieldsOk⟩ :=
    Outcome.target_of_mem (Padding.pulse_plains _ _ innerOk) member
  exact ⟨fields', ⟨pulses, pulsesMember, _, found', Padding.mem_extend_plains.2 (Or.inl member')⟩,
    _, fieldsOk⟩

end Sequence

end Analog
