import Analog.Proofs.KnownForms
import Analog.Proofs.PaddedSequences
import Analog.Proofs.SubstitutedNodes

/-!
# Canonical sequences use the same channels

Merging drives replaces modulations by others, and empty parts are left out of appends. What
is not lost by a merge, such as a modulation that lists no sites or a site that is listed, is
not lost by simplification at all: an empty part is left out only if each of its channels
equals one that is covered, and whatever covers it stays. So padding finds the same
couplings, fields and sites to drive.
-/

set_option autoImplicit false

namespace Analog

def Modulation.sites : Modulation → List UInt64
  | .scaled listed => listed.map (·.site)
  | _ => []

/-- A property of modulations that equal ones share, that depends on listed sites only and not
on their weights, and that the union of listed sites has exactly if one of the lists has it. -/
structure Trace (property : Modulation → Prop) : Prop where
  same : ∀ first second, first.same second = true → (property first ↔ property second)
  sites : ∀ listed others : List Location,
    (∀ site, site ∈ listed.map (·.site) ↔ site ∈ others.map (·.site)) →
    (property (.scaled listed) ↔ property (.scaled others))
  union : ∀ first second,
    property (.scaled (first ++ second)) ↔ property (.scaled first) ∨ property (.scaled second)

namespace Trace

theorem driven : Trace fun _ => True := by
  constructor <;> simp

theorem whole {target : Modulation} (notListed : ∀ listed, target ≠ .scaled listed) :
    Trace fun modulation => modulation.same target = true := by
  have apart : ∀ listed, (Modulation.scaled listed).same target = false := by
    intro listed
    cases target with
    | scaled others => exact absurd rfl (notListed others)
    | _ => rfl
  refine ⟨fun first second equal => ?_, by simp [apart], by simp [apart]⟩
  rcases (Modulation.same_iff _ _).1 equal with ⟨rfl, _⟩ | ⟨_, _, rfl, rfl, _⟩
  · rfl
  · simp [apart]

theorem site (index : UInt64) : Trace fun modulation => index ∈ modulation.sites := by
  refine ⟨fun first second equal => ?_, fun listed others sameSites => sameSites index, ?_⟩
  · rcases (Modulation.same_iff _ _).1 equal with ⟨rfl, _⟩ | ⟨listed, others, rfl, rfl, each⟩
    · rfl
    · have sameSites : others.map (·.site) = listed.map (·.site) :=
        Outcome.map_eq_of_related each fun _ _ related => related.1.symm
      rw [Modulation.sites, Modulation.sites, sameSites]
  · simp [Modulation.sites]

variable {property : Modulation → Prop}

theorem of_locations (trace : Trace property) (listed : List Location) :
    property (.ofLocations listed) ↔ property (.scaled listed) :=
  trace.sites _ _ (Modulation.mem_sites_place_all listed)

end Trace

/-- A drive of this field of a plain pulse has a modulation with the property. -/
def PerField.Bears (property : Modulation → Prop) (name : FieldName) (fields : PerField Field) :
    Prop :=
  ∃ field, fields.get? name = some field ∧ ∃ drive ∈ field.drives, property drive.target

def Pulse.Bears (property : Modulation → Prop) (name : FieldName) (pulse : Pulse) : Prop :=
  ∃ fields ∈ pulse.plains, fields.Bears property name

def Sequence.Bears (property : Modulation → Prop) (coupling : Coupling) (name : FieldName)
    (sequence : Sequence) : Prop :=
  ∃ pulses ∈ sequence.plains, ∃ pulse, pulses.get? coupling = some pulse ∧
    pulse.Bears property name

section Bears

variable {property : Modulation → Prop} {name : FieldName} {coupling : Coupling}

theorem PerField.bears_iff (fields : PerField Field) :
    fields.Bears property name ↔ ∃ target, fields.Modulates name target ∧ property target := by
  constructor
  · rintro ⟨field, found, drive, member, has⟩
    exact ⟨drive.target, ⟨field, found, List.mem_map_of_mem member⟩, has⟩
  · rintro ⟨_, ⟨field, found, member⟩, has⟩
    obtain ⟨drive, driveMember, rfl⟩ := List.mem_map.1 member
    exact ⟨field, found, drive, driveMember, has⟩

theorem Pulse.bears_append_iff (parts : List Pulse) :
    (Pulse.append parts).Bears property name ↔ ∃ part ∈ parts, part.Bears property name := by
  simp only [Bears, plains, mem_plains_all]
  constructor
  · rintro ⟨fields, ⟨part, member, inside⟩, bears⟩
    exact ⟨part, member, fields, inside, bears⟩
  · rintro ⟨part, member, fields, inside, bears⟩
    exact ⟨fields, ⟨part, member, inside⟩, bears⟩

theorem Sequence.bears_append_iff (parts : List Sequence) :
    (Sequence.append parts).Bears property coupling name ↔
      ∃ part ∈ parts, part.Bears property coupling name := by
  simp only [Bears, plains, mem_plains_all]
  constructor
  · rintro ⟨pulses, ⟨part, member, inside⟩, bears⟩
    exact ⟨part, member, pulses, inside, bears⟩
  · rintro ⟨part, member, pulses, inside, bears⟩
    exact ⟨pulses, ⟨part, member, inside⟩, bears⟩

theorem Pulse.exists_channel_iff (pulse : Pulse) :
    (∃ channel ∈ pulse.channels coupling, channel.field = name ∧ property channel.target) ↔
      pulse.Bears property name := by
  simp only [channels, List.mem_flatMap, PerField.mem_channels_iff, Bears, PerField.bears_iff]
  constructor
  · rintro ⟨channel, ⟨fields, member, _, modulates⟩, rfl, has⟩
    exact ⟨fields, member, channel.target, modulates, has⟩
  · rintro ⟨fields, member, target, modulates, has⟩
    exact ⟨⟨coupling, name, target⟩, ⟨fields, member, rfl, modulates⟩, rfl, has⟩

/-- The list of channels keeps an equal of every modulation in use. -/
theorem Sequence.exists_channel_iff (trace : Trace property) (sequence : Sequence) :
    (∃ channel ∈ sequence.channels, channel.coupling = coupling ∧ channel.field = name ∧
      property channel.target) ↔ sequence.Bears property coupling name := by
  constructor
  · rintro ⟨channel, member, rfl, rfl, has⟩
    obtain ⟨fields, ⟨pulses, pulsesMember, pulse, found, fieldsMember⟩, modulates⟩ :=
      exists_use member
    exact ⟨pulses, pulsesMember, pulse, found, fields, fieldsMember,
      fields.bears_iff.2 ⟨channel.target, modulates, has⟩⟩
  · rintro ⟨pulses, pulsesMember, pulse, found, fields, fieldsMember, bears⟩
    obtain ⟨target, modulates, has⟩ := fields.bears_iff.1 bears
    obtain ⟨channel, member, sameCoupling, sameField, equal⟩ :=
      exists_channel ⟨pulses, pulsesMember, pulse, found, fieldsMember⟩ modulates
    exact ⟨channel, member, sameCoupling, sameField, (trace.same _ _ equal).1 has⟩

end Bears

namespace Canonical

/-- If the work succeeds, then its result is good. -/
abbrev Returns {α : Type} (work : Simplifying α) (good : α → Prop) : Prop :=
  Keeps (fun _ => True) work good

theorem returns_anything {α : Type} (work : Simplifying α) : Returns work fun _ => True :=
  fun _ _ => ⟨trivial, fun _ _ => trivial⟩

variable {property : Modulation → Prop} (trace : Trace property)

theorem locations_sites (listed : List Location) :
    Returns (locations listed) fun result => result.map (·.site) = listed.map (·.site) := by
  rw [locations_eq_mapM]
  have each : ∀ location ∈ listed, Returns
      (do
        let weight ← scalar location.weight
        return (⟨location.site, weight⟩ : Location))
      fun result => result.site = location.site :=
    fun location _ => (returns_anything _).bind fun _ _ => .pure rfl
  exact (Keeps.mapM each).mono fun results related =>
    Outcome.map_eq_of_related related fun _ _ same => same

/-- The property is found among both lists of drives or among neither. -/
def SameTraces (property : Modulation → Prop) (given result : List Drive) : Prop :=
  (∃ drive ∈ result, property drive.target) ↔ ∃ drive ∈ given, property drive.target

theorem same_traces_merging : Merging (SameTraces property) where
  refl _ := Iff.rfl
  trans one two := two.trans one
  cons := by
    intro drive given result same
    unfold SameTraces at same ⊢
    rw [List.exists_mem_cons_iff, List.exists_mem_cons_iff, same]
  swap := by
    intro first second rest
    simp only [SameTraces, List.exists_mem_cons_iff]
    exact or_left_comm

theorem same_traces_replaces {given : List Drive} {merged : Drive}
    (same : property merged.target ↔ ∃ drive ∈ given, property drive.target) :
    Replaced (fun _ => True) (SameTraces property) given merged := by
  refine ⟨trivial, fun rest => ?_⟩
  unfold SameTraces
  simp only [List.exists_mem_cons_iff, same, List.mem_append, or_and_right, exists_or]

include trace

theorem modulation_bears (given : Modulation) :
    Returns (modulation given) fun result => property result ↔ property given := by
  cases given with
  | scaled listed =>
      rw [modulation]
      refine (locations_sites listed).bind fun others same => .pure ?_
      rw [trace.of_locations]
      exact trace.sites _ _ fun site => by rw [same]
  | _ => exact .pure Iff.rfl

theorem merge_pair_bears (first second : Drive) :
    Returns (mergePair first second) fun result => ∀ merged ∈ result,
      (property merged.target ↔ property first.target ∨ property second.target) := by
  unfold mergePair
  split_ifs with sameTarget sameWaveform
  · refine (returns_anything _).bind fun waveform _ => .pure ?_
    simp only [Option.mem_def, Option.some.injEq, forall_eq']
    rw [trace.same _ _ sameTarget, or_self]
  · split
    case h_1 firstSites secondSites firstListed secondListed =>
        refine (modulation_bears trace _).bind fun target bears => .pure ?_
        simp only [Option.mem_def, Option.some.injEq, forall_eq']
        rw [bears, trace.of_locations, trace.union, firstListed, secondListed]
    case h_2 => exact .pure (by simp)
  · exact .pure (by simp)

theorem field_bears (given : Field) :
    Returns (field given) fun result => SameTraces property given.drives result.drives := by
  have pairs : ∀ first second, True → True → Returns (mergePair first second) fun result =>
      ∀ merged ∈ result, Replaced (fun _ => True) (SameTraces property) [first, second] merged :=
    fun first second _ _ => (merge_pair_bears trace first second).mono
      fun result bears merged member => same_traces_replaces (by simp [bears merged member])
  have each : ∀ item ∈ given.drives, Returns (drive item)
      (Replaced (fun _ => True) (SameTraces property) [item]) := fun item _ =>
    (modulation_bears trace item.target).bind fun target bears =>
      (returns_anything _).bind fun _ _ => .pure (same_traces_replaces (by simp [bears]))
  have summed : ∀ first second : Drive, True → True → first.target.same second.target = true →
      Replaced (fun _ => True) (SameTraces property) [first, second]
        ⟨first.target, .add first.waveform second.waveform⟩ :=
    fun first second _ _ equal =>
      same_traces_replaces (by simp [trace.same _ _ equal])
  exact (field_merges (keeps_stepwise fun _ => True) same_traces_merging pairs each summed).mono
    fun result merged => merged.2.related

theorem fields_bear (name : FieldName) (given : PerField Field) :
    Returns (given.mapM field) fun result =>
      result.Bears property name ↔ given.Bears property name := by
  refine ((keeps_stepwise _).per_field given fun _ value _ => field_bears trace value).mono fun result related => ?_
  have here := related name
  unfold PerField.Bears
  generalize given.get? name = before at here ⊢
  generalize result.get? name = after at here ⊢
  cases here with
  | none => simp
  | some bears => simpa [SameTraces] using bears

omit trace

section Retained

variable {α : Type} {found : Channel → Prop}

theorem each_insert_all {held : Channel → Prop} {covered : KeyedSet Channel}
    (each : covered.map.Each fun channel _ => held channel) {channels : List Channel}
    (fresh : ∀ channel ∈ channels, held channel) :
    (covered.insertAll channels).map.Each fun channel _ => held channel := by
  induction channels generalizing covered with
  | nil => exact each
  | cons channel rest ih =>
      obtain ⟨channelHeld, restHeld⟩ := List.forall_mem_cons.1 fresh
      exact ih (each.insert channelHeld fun _ _ otherHeld _ => otherHeld) restHeld

theorem covered_channels_each {held : Channel → Prop} {parts : List (Bool × List Channel)}
    (each : ∀ part ∈ parts, part.1 = false → ∀ channel ∈ part.2, held channel) :
    (coveredChannels parts).map.Each fun channel _ => held channel := by
  induction parts using List.reverseRecOn with
  | nil => exact KeyedMap.each_empty
  | append_singleton before last ih =>
      rw [List.forall_mem_append, List.forall_mem_singleton] at each
      obtain ⟨beforeEach, lastEach⟩ := each
      have covered := ih beforeEach
      unfold coveredChannels at covered ⊢
      rw [List.foldl_append, List.foldl_cons, List.foldl_nil]
      cases empty : last.1 with
      | true => exact covered
      | false => exact each_insert_all covered (lastEach empty)

theorem mem_drop_empty {marked : List (α × Bool × List Channel)} (covered : KeyedSet Channel) :
    ∀ part ∈ marked, part.2.1 = false → part.1 ∈ dropEmpty covered marked := by
  induction marked generalizing covered with
  | nil => simp
  | cons head rest ih =>
      obtain ⟨part, empty, channels⟩ := head
      rw [dropEmpty]
      refine List.forall_mem_cons.2 ⟨?_, fun other member notEmpty => ?_⟩
      · rintro ⟨⟩
        simp
      · have later := fun covered => ih covered other member notEmpty
        split_ifs
        · exact later covered
        · exact List.mem_cons_of_mem _ (later _)
        · exact List.mem_cons_of_mem _ (later _)

/-- A part is left out only if each of its channels equals a covered one. So what is found in any
part is reached, if it is wherever a covered channel or a part that stays has it. -/
theorem drop_empty_reaches {channels : α → List Channel} {reached : Prop}
    (same : ∀ first second : Channel, first.same second = true → found first → found second)
    {marked : List (α × Bool × List Channel)} {covered : KeyedSet Channel}
    (marks : ∀ mark ∈ marked, mark.2.2 = channels mark.1)
    (covers : covered.map.Each fun channel _ => found channel → reached)
    (stays : ∀ part ∈ dropEmpty covered marked, ∀ channel ∈ channels part,
      found channel → reached) :
    ∀ mark ∈ marked, ∀ channel ∈ channels mark.1, found channel → reached := by
  induction marked generalizing covered with
  | nil => simp
  | cons head rest ih =>
      obtain ⟨part, empty, used⟩ := head
      obtain ⟨markHere, marksRest⟩ := List.forall_mem_cons.1 marks
      obtain rfl : used = channels part := markHere
      rw [dropEmpty] at stays
      rw [List.forall_mem_cons]
      split_ifs at stays with isEmpty contained
      · refine ⟨fun channel member has => ?_, ih marksRest covers stays⟩
        have inside := List.all_eq_true.1 contained channel member
        obtain ⟨_, there⟩ := Option.isSome_iff_exists.1 inside
        obtain ⟨other, equal, reaches⟩ := covers.find there
        exact reaches (same channel other equal has)
      · obtain ⟨stay, restStay⟩ := List.forall_mem_cons.1 stays
        exact ⟨stay, ih marksRest (each_insert_all covers stay) restStay⟩
      · obtain ⟨stay, restStay⟩ := List.forall_mem_cons.1 stays
        exact ⟨stay, ih marksRest covers restStay⟩

/-- What is found in the channels of some part is found in those of a part that is retained. -/
theorem retain_finds {length : α → Scalar} {channels : α → List Channel} (parts : List α)
    (same : ∀ first second : Channel, first.same second = true → found first → found second) :
    Returns (retain length channels parts) fun kept =>
      (∃ part ∈ kept, ∃ channel ∈ channels part, found channel) ↔
        ∃ part ∈ parts, ∃ channel ∈ channels part, found channel := by
  unfold retain
  have each : ∀ part ∈ parts, Returns
      (do
        let empty ← isEmpty (length part)
        return (part, empty, channels part))
      fun mark => mark.1 = part ∧ mark.2.2 = channels part :=
    fun part _ => (returns_anything _).bind fun _ _ => .pure ⟨rfl, rfl⟩
  refine (Keeps.mapM each).bind fun marked related => .pure ?_
  have marks : ∀ mark ∈ marked, mark.2.2 = channels mark.1 := by
    intro mark member
    obtain ⟨part, _, samePart, used⟩ := Outcome.source_of_mem related member
    rw [used, samePart]
  have parts_eq : marked.map Prod.fst = parts := by
    rw [Outcome.map_eq_of_related related fun _ _ mark => mark.1, List.map_id']
  let covered := coveredChannels (marked.map Prod.snd)
  constructor
  · rintro ⟨part, member, finds⟩
    exact ⟨part, parts_eq ▸ (drop_empty_sublist covered marked).subset member, finds⟩
  · rintro ⟨part, member, channel, used, has⟩
    have covers : covered.map.Each fun channel _ => found channel →
        ∃ part ∈ dropEmpty covered marked, ∃ channel ∈ channels part, found channel := by
      refine covered_channels_each (List.forall_mem_map.2 fun mark markMember notEmpty other
        otherUsed otherHas => ?_)
      rw [marks mark markMember] at otherUsed
      exact ⟨mark.1, mem_drop_empty covered mark markMember notEmpty, other, otherUsed, otherHas⟩
    rw [← parts_eq] at member
    obtain ⟨mark, markMember, rfl⟩ := List.mem_map.1 member
    exact drop_empty_reaches same marks covers
      (fun part stays other otherUsed otherHas => ⟨part, stays, other, otherUsed, otherHas⟩)
      mark markMember channel used has

end Retained

/-- Splicing finds in the parts of an append what is found in the append. -/
theorem exists_spliced_iff {α : Type} {splice : α → List α} {found : α → Prop} (parts : List α)
    (spliced : ∀ part, (∃ inner ∈ splice part, found inner) ↔ found part) :
    (∃ part ∈ parts.flatMap splice, found part) ↔ ∃ part ∈ parts, found part := by
  simp only [List.mem_flatMap]
  constructor
  · rintro ⟨inner, ⟨part, member, inside⟩, has⟩
    exact ⟨part, member, (spliced part).1 ⟨inner, inside, has⟩⟩
  · rintro ⟨part, member, has⟩
    obtain ⟨inner, inside, innerHas⟩ := (spliced part).2 has
    exact ⟨inner, ⟨part, member, inside⟩, innerHas⟩

include trace

theorem concatenate_pulses_bears (name : FieldName) (parts : List Pulse) :
    Returns (concatenatePulses parts) fun result =>
      result.Bears property name ↔ ∃ part ∈ parts, part.Bears property name := by
  unfold concatenatePulses
  have same : ∀ first second : Channel, first.same second = true →
      first.field = name ∧ property first.target → second.field = name ∧ property second.target := by
    rintro first second equal ⟨rfl, has⟩
    obtain ⟨_, sameField, sameTarget⟩ := (Channel.same_iff _ _).1 equal
    exact ⟨sameField.symm, (trace.same _ _ sameTarget).1 has⟩
  refine (retain_finds _ same).bind fun kept finds => ?_
  simp only [Pulse.exists_channel_iff] at finds
  have spliced : ∀ part : Pulse, (∃ inner ∈ splicePulses part, inner.Bears property name) ↔
      part.Bears property name := by
    intro part
    unfold splicePulses
    split
    · exact (Pulse.bears_append_iff _).symm
    · simp
  rw [exists_spliced_iff parts spliced] at finds
  rcases kept with _ | ⟨part, _ | ⟨second, others⟩⟩
  · refine .pure (Iff.trans ?_ finds)
    simp [Pulse.Bears, Pulse.plains, PerField.Bears]
  · exact .pure (Iff.trans (by simp) finds)
  · exact .pure ((Pulse.bears_append_iff _).trans finds)

theorem pulse_bears (name : FieldName) (given : Pulse) :
    Returns (pulse given) fun result =>
      result.Bears property name ↔ given.Bears property name := by
  induction given using Pulse.parts_induction with
  | plain fields =>
      rw [pulse]
      refine (fields_bear trace name fields).bind fun fields' bears => .pure ?_
      simpa [Pulse.Bears, Pulse.plains] using bears
  | append parts ih =>
      rw [pulse, pulses_eq_mapM]
      refine (Keeps.mapM ih).bind fun parts' related => ?_
      refine (concatenate_pulses_bears trace name parts').mono fun result bears => ?_
      rw [bears, Pulse.bears_append_iff]
      exact Outcome.exists_iff_of_related related fun _ _ bears => bears
  | slice inner interval ih =>
      rw [pulse]
      refine ih.bind fun inner' bears => ?_
      refine (returns_anything _).bind fun bounds _ => (returns_anything _).bind fun length _ => ?_
      split_ifs <;> exact .pure bears
  | named name' inner ih =>
      rw [pulse]
      exact ih.bind fun inner' bears => .pure bears

theorem concatenate_sequences_bears (coupling : Coupling) (name : FieldName)
    (parts : List Sequence) :
    Returns (concatenateSequences parts) fun result =>
      result.Bears property coupling name ↔ ∃ part ∈ parts, part.Bears property coupling name := by
  unfold concatenateSequences
  have same : ∀ first second : Channel, first.same second = true →
      first.coupling = coupling ∧ first.field = name ∧ property first.target →
      second.coupling = coupling ∧ second.field = name ∧ property second.target := by
    rintro first second equal ⟨rfl, rfl, has⟩
    obtain ⟨sameCoupling, sameField, sameTarget⟩ := (Channel.same_iff _ _).1 equal
    exact ⟨sameCoupling.symm, sameField.symm, (trace.same _ _ sameTarget).1 has⟩
  refine (retain_finds _ same).bind fun kept finds => ?_
  simp only [Sequence.exists_channel_iff trace] at finds
  have spliced : ∀ part : Sequence,
      (∃ inner ∈ spliceSequences part, inner.Bears property coupling name) ↔
        part.Bears property coupling name := by
    intro part
    unfold spliceSequences
    split
    · exact (Sequence.bears_append_iff _).symm
    · simp
  rw [exists_spliced_iff parts spliced] at finds
  rcases kept with _ | ⟨part, _ | ⟨second, others⟩⟩
  · refine .pure (Iff.trans ?_ finds)
    simp [Sequence.Bears, Sequence.plains]
  · exact .pure (Iff.trans (by simp) finds)
  · exact .pure ((Sequence.bears_append_iff _).trans finds)

theorem sequence_bears (coupling : Coupling) (name : FieldName) (given : Sequence) :
    Returns (sequence given) fun result =>
      result.Bears property coupling name ↔ given.Bears property coupling name := by
  induction given using Sequence.parts_induction with
  | plain pulses =>
      rw [sequence]
      refine ((keeps_stepwise _).per_coupling pulses fun _ value _ => pulse_bears trace name value).bind
        fun pulses' related => .pure ?_
      have here := related coupling
      simp only [Sequence.Bears, Sequence.plains, List.mem_singleton, exists_eq_left]
      generalize pulses.get? coupling = before at here ⊢
      generalize pulses'.get? coupling = after at here ⊢
      cases here with
      | none => simp
      | some bears => simpa using bears
  | append parts ih =>
      rw [sequence, sequences_eq_mapM]
      refine (Keeps.mapM ih).bind fun parts' related => ?_
      refine (concatenate_sequences_bears trace coupling name parts').mono fun result bears => ?_
      rw [bears, Sequence.bears_append_iff]
      exact Outcome.exists_iff_of_related related fun _ _ bears => bears
  | slice inner interval ih =>
      rw [sequence]
      refine ih.bind fun inner' bears => ?_
      refine (returns_anything _).bind fun bounds _ => (returns_anything _).bind fun length _ => ?_
      split_ifs <;> exact .pure bears
  | named name' inner ih =>
      rw [sequence]
      exact ih.bind fun inner' bears => .pure bears

/-- A trace is found in the channels of a canonical sequence exactly if it is in those given. -/
theorem channels_bear {given result : Sequence} (succeeds : afresh (sequence given) = .ok result)
    (coupling : Coupling) (name : FieldName) :
    (∃ channel ∈ result.channels, channel.coupling = coupling ∧ channel.field = name ∧
      property channel.target) ↔
    ∃ channel ∈ given.channels, channel.coupling = coupling ∧ channel.field = name ∧
      property channel.target := by
  rw [Sequence.exists_channel_iff trace, Sequence.exists_channel_iff trace]
  exact (sequence_bears trace coupling name given).afresh trivial succeeds

omit trace

/-- Simplifying a sequence loses no channel and adds none: the channels of the canonical form have
the same couplings and fields, and with each of these the same modulations, up to equality, that
list no sites, and the same listed sites. -/
theorem canonical_sequence_keeps_channels {given result : Sequence}
    (succeeds : afresh (sequence given) = .ok result) (coupling : Coupling) (name : FieldName) :
    ((∃ channel ∈ result.channels, channel.coupling = coupling ∧ channel.field = name) ↔
      ∃ channel ∈ given.channels, channel.coupling = coupling ∧ channel.field = name) ∧
    (∀ target : Modulation, (∀ listed, target ≠ .scaled listed) →
      ((∃ channel ∈ result.channels, channel.coupling = coupling ∧ channel.field = name ∧
          channel.target.same target = true) ↔
        ∃ channel ∈ given.channels, channel.coupling = coupling ∧ channel.field = name ∧
          channel.target.same target = true)) ∧
    ∀ site : UInt64,
      (∃ channel ∈ result.channels, channel.coupling = coupling ∧ channel.field = name ∧
          site ∈ channel.target.sites) ↔
        ∃ channel ∈ given.channels, channel.coupling = coupling ∧ channel.field = name ∧
          site ∈ channel.target.sites := by
  refine ⟨?_, fun target notListed => channels_bear (.whole notListed) succeeds coupling name,
    fun site => channels_bear (.site site) succeeds coupling name⟩
  simpa using channels_bear .driven succeeds coupling name

/-- A pulse that holds the detuning at a value, for as long as the value says. -/
def heldPulse (target : Modulation) (value : Decimal) : Pulse :=
  .plain ⟨some ⟨[⟨target, .constant (.literal value) (.literal value)⟩]⟩, none, none⟩

theorem held_pulse_form {forms : Forms} {target : Modulation} {value : Decimal}
    (consistent : forms.Consistent) (listed : (.constant (.literal value) (.literal value),
      .constant (.literal value) (.literal value)) ∈ forms)
    (targetGives : Gives forms (modulation target) target) :
    Gives forms (pulse (heldPulse target value)) (heldPulse target value) := by
  apply plain_pulse_form
  rintro (_ | _ | _)
  exacts [.some (single_drive_form targetGives (constant_form consistent listed)), .none, .none]

def uniformChannel : Channel := ⟨.rydberg, .detuning, .uniform⟩

def uniformPart (value : Decimal) : Sequence :=
  .plain ⟨some (heldPulse uniformChannel.target value), none⟩

/-- The channel of an empty part that drives one site of the other coupling. -/
def loneChannel : Channel := ⟨.hyperfine, .detuning, .scaled [⟨0, .literal 1⟩]⟩

def lonePart : Sequence :=
  .plain ⟨none, some (heldPulse loneChannel.target 0)⟩

theorem uniform_part_channels (value : Decimal) : (uniformPart value).channels = [uniformChannel] :=
  Channel.unique_of_distinct (List.pairwise_singleton _ _)

theorem lone_part_channels : lonePart.channels = [loneChannel] :=
  Channel.unique_of_distinct (List.pairwise_singleton _ _)

theorem lone_channel_stays :
    (KeyedSet.empty.insert uniformChannel).contains loneChannel = false := by
  have each : (KeyedSet.empty.insert uniformChannel).map.Each
      fun channel _ => channel.coupling = .rydberg :=
    KeyedMap.each_empty.insert rfl fun _ _ held _ => held
  rw [KeyedSet.contains, KeyedMap.contains, Option.isSome_eq_false_iff, Option.isNone_iff_eq_none,
    Option.eq_none_iff_forall_ne_some]
  intro _ found
  obtain ⟨other, equal, coupling⟩ := each.find found
  cases ((Channel.same_iff _ _).1 equal).1.trans coupling

/-- Of two empty parts, the one whose channel is covered is left out. -/
theorem covered_part_dropped :
    afresh (sequence (.append [uniformPart 1, uniformPart 0, lonePart])) =
      .ok (.append [uniformPart 1, lonePart]) := by
  let still : Waveform := .constant (.literal 0) (.literal 0)
  let high : Waveform := .constant (.literal 1) (.literal 1)
  let forms : Forms := [(still, still), (high, high)]
  have consistent : forms.Consistent := Forms.Distinct.consistent (by decide) (by simp [forms])
  have siteForm : Gives forms (modulation loneChannel.target) loneChannel.target := by
    rw [loneChannel, modulation]
    exact Gives.bind ((literal_form 1).bind (Gives.bind .pure .pure)) .pure
  have uniformForm : ∀ value, (.constant (.literal value) (.literal value),
      .constant (.literal value) (.literal value)) ∈ forms →
      Gives forms (sequence (uniformPart value)) (uniformPart value) := by
    intro value listed
    apply plain_sequence_form
    rintro (_ | _)
    exacts [.some (held_pulse_form consistent listed .pure), .none]
  have loneForm : Gives forms (sequence lonePart) lonePart := by
    apply plain_sequence_form
    rintro (_ | _)
    exacts [.none, .some (held_pulse_form consistent (by simp [forms, still]) siteForm)]
  have kept : Gives forms (retain Sequence.symbolicDuration Sequence.channels
      [uniformPart 1, uniformPart 0, lonePart]) [uniformPart 1, lonePart] := by
    let covered : KeyedSet Channel := KeyedSet.empty.insert uniformChannel
    let marked : List (Sequence × Bool × List Channel) := [(uniformPart 1, false, [uniformChannel]),
      (uniformPart 0, true, [uniformChannel]), (lonePart, true, [loneChannel])]
    have drops : dropEmpty covered marked = [uniformPart 1, lonePart] := by
      have uniformCovered : covered.contains uniformChannel = true :=
        KeyedMap.contains_insert_self _ () (Channel.same_refl _)
      simp [dropEmpty, marked, covered, uniformCovered, lone_channel_stays]
    have literal : ∀ part ∈ [uniformPart 1, uniformPart 0, lonePart],
        ∃ value, part.symbolicDuration = .literal value := by
      simp only [List.forall_mem_cons, List.not_mem_nil, false_implies, implies_true, and_true]
      exact ⟨⟨1, rfl⟩, ⟨0, rfl⟩, ⟨0, rfl⟩⟩
    have marks : [uniformPart 1, uniformPart 0, lonePart].map
        (fun part => (part, part.symbolicDuration.isZero, part.channels)) = marked := by
      rw [List.map_cons, List.map_cons, List.map_cons, uniform_part_channels,
        uniform_part_channels, lone_part_channels]
      rfl
    rw [← drops]
    exact retain_form literal marks
  apply Gives.afresh
  show Gives forms _ _
  exact append_sequence_form (.cons (uniformForm 1 (by simp [forms, high]))
    (.cons (uniformForm 0 (by simp [forms, still])) (.cons loneForm .nil))) (kept.bind .pure)

theorem canonical_sequence_keeps_channels_empty_parts :
    afresh (sequence (.append [uniformPart 1, uniformPart 0, lonePart])) =
      .ok (.append [uniformPart 1, lonePart]) ∧
    (∃ channel ∈ (Sequence.append [uniformPart 1, lonePart]).channels,
      channel.coupling = .hyperfine ∧ channel.field = .detuning) ∧
    (∃ channel ∈ (Sequence.append [uniformPart 1, lonePart]).channels,
      channel.coupling = .rydberg ∧ channel.field = .detuning ∧
        channel.target.same .uniform = true) ∧
    ∃ channel ∈ (Sequence.append [uniformPart 1, lonePart]).channels,
      channel.coupling = .hyperfine ∧ channel.field = .detuning ∧ 0 ∈ channel.target.sites := by
  have uniformBears : ∀ property : Modulation → Prop, property .uniform →
      (Sequence.append [uniformPart 1, uniformPart 0, lonePart]).Bears property
        .rydberg .detuning := by
    intro property has
    refine (Sequence.bears_append_iff _).2 ⟨uniformPart 1, by simp, ?_⟩
    exact ⟨_, .head _, _, rfl, _, .head _, _, rfl, _, .head _, has⟩
  have loneBears : ∀ property : Modulation → Prop, property loneChannel.target →
      (Sequence.append [uniformPart 1, uniformPart 0, lonePart]).Bears property
        .hyperfine .detuning := by
    intro property has
    refine (Sequence.bears_append_iff _).2 ⟨lonePart, by simp, ?_⟩
    exact ⟨_, .head _, _, rfl, _, .head _, _, rfl, _, .head _, has⟩
  have rydberg := canonical_sequence_keeps_channels covered_part_dropped .rydberg .detuning
  have hyperfine := canonical_sequence_keeps_channels covered_part_dropped .hyperfine .detuning
  refine ⟨covered_part_dropped, hyperfine.1.2 ?_, (rydberg.2.1 .uniform (by simp)).2 ?_,
    (hyperfine.2.2 0).2 ?_⟩
  · simpa using (Sequence.exists_channel_iff .driven _).2 (loneBears _ trivial)
  · exact (Sequence.exists_channel_iff (.whole (by simp)) _).2 (uniformBears _ rfl)
  · exact (Sequence.exists_channel_iff (.site 0) _).2
      (loneBears _ (by simp [loneChannel, Modulation.sites]))

end Canonical

end Analog
