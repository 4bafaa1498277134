import Analog.Proofs.ChannelCourses
import Analog.Proofs.PaddedDrives

/-!
# Courses of padded sequences

A drive that is extended rests until the longest drive ends, and so does a channel that is not
driven. So padding a sequence of drives that are ready succeeds, and neither changes how long
its parts last nor the course of any channel.
-/

set_option autoImplicit false

namespace Analog

open Scalar Stretch

variable [Natives] {bindings : ScalarBindings}

/-- A plain pulse that lasts as long as the given one, with the same courses. -/
abbrev PerField.Retains (bindings : ScalarBindings) : PerField Field → PerField Field → Prop :=
  Analog.Retains (Ready bindings) (extent bindings)
    fun fields (channel : FieldName × Modulation) => fields.course bindings channel.1 channel.2

/-- A pulse that lasts as long as the given one, with the same courses. -/
abbrev Pulse.Retains (bindings : ScalarBindings) : Pulse → Pulse → Prop :=
  Analog.Retains (Ready bindings) (extent bindings)
    fun pulse (channel : FieldName × Modulation) => pulse.course bindings channel.1 channel.2

/-- A plain sequence that lasts as long as the given one, with the same courses. -/
abbrev PerCoupling.Retains (bindings : ScalarBindings) :
    PerCoupling Pulse → PerCoupling Pulse → Prop :=
  Analog.Retains (EachPulse (Pulse.Ready bindings)) (extent bindings) (course bindings)

/-- A sequence that lasts as long as the given one, with the same courses. -/
abbrev Sequence.Retains (bindings : ScalarBindings) : Sequence → Sequence → Prop :=
  Analog.Retains (Ready bindings) (extent bindings) (course bindings)

namespace Waveform.Piecewise

variable {waveform : Waveform} {length total : Decimal}

omit [Natives] in
theorem not_aligned (piecewise : Piecewise bindings waveform length) :
    waveform.alignment? = (waveform, none) := by
  cases piecewise <;> rfl

theorem pad (piecewise : Piecewise bindings waveform length) (short : length ≤ total) :
    ∃ longer, waveform.pad bindings total = .ok longer ∧ Piecewise bindings longer total ∧
      ∀ target, longer.stretch bindings target =
        waveform.stretch bindings target * rest (total - length) := by
  unfold Waveform.pad
  rw [piecewise.not_aligned]
  dsimp only
  rw [piecewise.lasts, Outcome.ok_bind]
  rcases short.eq_or_lt with rfl | shorter
  · refine ⟨waveform, by simp, piecewise, fun target => ?_⟩
    rw [sub_self, rest_zero, mul_one]
  · have remains : 0 < total - length := sub_pos.2 shorter
    have padding : Piecewise bindings (.zero (.literal (total - length))) (total - length) :=
      .constant (literal_counts 0) (literal_counts _) remains.le
    have whole : Piecewise bindings (.append [waveform, .zero (.literal (total - length))])
        ([waveform, .zero (.literal (total - length))].map (extent bindings)).sum :=
      .append (List.cons_ne_nil _ _)
        (List.forall_mem_cons.2 ⟨piecewise.own, List.forall_mem_singleton.2 padding.own⟩)
    refine ⟨_, if_neg (by simpa using remains), ?_, fun target => ?_⟩
    · simpa [piecewise.extent_eq, padding.extent_eq] using whole
    · rw [append_stretch whole.pieced, List.map_cons, List.map_singleton, List.prod_cons,
        List.prod_singleton, zero_stretch rfl remains.le]

end Waveform.Piecewise

namespace Padding

omit [Natives] in
theorem longest_of_ready {drives : List Drive} (each : ∀ drive ∈ drives, drive.Ready bindings) :
    longestDrive bindings drives =
      .ok (greatest (drives.map (·.waveform.extent bindings))) := by
  induction drives with
  | nil => rfl
  | cons drive others ih =>
      obtain ⟨ready, othersReady⟩ := List.forall_mem_cons.1 each
      rw [longestDrive, ready.piecewise.lasts, Outcome.ok_bind, ih othersReady]
      rfl

omit [Natives] in
theorem longest_of_fields {fields : PerField Field}
    (each : fields.EachDrive (Drive.Ready bindings)) :
    longestDrive bindings (fields.entries.flatMap (·.2.drives)) =
      .ok (fields.extent bindings) := by
  rw [longest_of_ready, List.map_flatMap, greatest_flatMap]
  · rfl
  · intro drive member
    obtain ⟨name, field, found, inside⟩ := mem_all_drives.1 member
    exact each name field found drive inside

/-- Required modulations that are all different, and do not list their sites. -/
structure Plain (targets : List Modulation) : Prop where
  unlisted : ∀ target ∈ targets, target.Unlisted
  apart : targets.Pairwise fun first second => first.same second = false

omit [Natives] in
theorem Plain.zeros {targets : List Modulation} (plain : Plain targets) (length : Decimal) :
    (Field.ofDrives (zeroDrives length targets)).drives = zeroDrives length targets :=
  Field.of_drives_of_apart _ (List.pairwise_map.2 plain.apart)

/-- A padded field holds the given drives, extended, and zeros for modulations that are missing. -/
structure Filled (bindings : ScalarBindings) (length : Decimal) (targets : List Modulation)
    (drives : List Drive) (result : Field) : Prop where
  apart : Field.Apart result.drives
  mem_iff : ∀ drive, drive ∈ result.drives ↔
    (∃ given ∈ drives, given.target = drive.target ∧
      given.waveform.pad bindings length = .ok drive.waveform) ∨
    drive.waveform = .zero (.literal length) ∧ drive.target ∈ targets ∧
      ∀ given ∈ drives, given.target ≠ drive.target

theorem field_filled {length : Decimal} {targets : List Modulation} {drives : List Drive}
    (plain : Plain targets) (ready : ∀ drive ∈ drives, drive.Ready bindings)
    (apart : Field.Apart drives)
    (short : ∀ drive ∈ drives, drive.waveform.extent bindings ≤ length) :
    ∃ result, field bindings length targets drives = .ok result ∧
      Filled bindings length targets drives result := by
  have pads : ∀ drive ∈ drives, ∃ longer : Drive, drive.target = longer.target ∧
      drive.waveform.pad bindings length = .ok longer.waveform := by
    intro drive member
    obtain ⟨longer, padOk, _⟩ := (ready drive member).piecewise.pad (short drive member)
    exact ⟨⟨drive.target, longer⟩, rfl, padOk⟩
  obtain ⟨extended, related⟩ := Outcome.related_of_each pads
  let missing := targets.filter fun target => !drives.any (·.target.same target)
  have mem_missing : ∀ target, target ∈ missing ↔
      target ∈ targets ∧ ∀ given ∈ drives, given.target ≠ target := by
    intro target
    rw [List.mem_filter, Bool.not_eq_true', List.any_eq_false]
    refine and_congr_right fun _ => forall₂_congr fun given member => not_congr ?_
    exact (ready given member).unlisted.same_iff
  have made : (drives.mapM fun drive => do
      let waveform ← drive.waveform.pad bindings length
      return Drive.mk drive.target waveform) = .ok extended := by
    refine (Outcome.mapM_ok_iff _ _ _).2 (related.imp fun drive longer both => ?_)
    rw [both.2, Outcome.ok_bind, both.1]
    rfl
  have allApart : Field.Apart (extended ++ zeroDrives length missing) := by
    have sameTargets : extended.map (·.target) = drives.map (·.target) :=
      Outcome.map_eq_of_related related fun _ _ both => both.1.symm
    refine List.pairwise_append.2 ⟨?_, ?_, fun longer longerMember zero zeroMember => ?_⟩
    · have mapped : (drives.map (·.target)).Pairwise fun first second =>
          first.same second = false := List.pairwise_map.2 apart
      rw [← sameTargets] at mapped
      exact List.pairwise_map.1 mapped
    · exact List.pairwise_map.2 (plain.apart.filter _)
    · obtain ⟨given, givenMember, same, _⟩ := Outcome.source_of_mem related longerMember
      obtain ⟨target, targetMember, rfl⟩ := List.mem_map.1 zeroMember
      have different := ((mem_missing target).1 targetMember).2 given givenMember
      rw [← same]
      exact Bool.eq_false_iff.2 fun equal =>
        different ((ready given givenMember).unlisted.same_iff.1 equal)
  have whole := Field.of_drives_of_apart _ allApart
  refine ⟨.ofDrives (extended ++ zeroDrives length missing), ?_, whole.symm ▸ allApart,
    fun drive => ?_⟩
  · unfold field
    rw [made]
    rfl
  · rw [whole, List.mem_append]
    refine or_congr ⟨fun member => ?_, fun ⟨given, member, same, padOk⟩ => ?_⟩ ?_
    · exact Outcome.source_of_mem related member
    · obtain ⟨longer, longerMember, sameTarget, longerOk⟩ := Outcome.target_of_mem related member
      have sameWaveform := Except.ok.inj (longerOk.symm.trans padOk)
      have sameDrive : longer = drive := by
        cases longer
        cases drive
        simp_all
      exact sameDrive ▸ longerMember
    · simp only [zeroDrives, List.mem_map, mem_missing]
      constructor
      · rintro ⟨target, ⟨asked, different⟩, rfl⟩
        exact ⟨rfl, asked, different⟩
      · rintro ⟨isZero, asked, different⟩
        exact ⟨drive.target, ⟨asked, different⟩, by rw [← isZero]⟩

variable {required : PerField (List Modulation)} {fields : PerField Field}

theorem plain_pulse_succeeds {length : Decimal}
    (longest : longestDrive bindings (fields.entries.flatMap (·.2.drives)) = .ok length)
    (each : ∀ name, ∃ made,
      field bindings length (wanted required name) (fields.drivesOf name) = .ok made) :
    ∃ result, plainPulse bindings required fields = .ok result := by
  have worked : ∀ name ∈ FieldName.all.filter fun name =>
        (fields.get? name).isSome || (required.get? name).isSome,
      ∃ entry, (do
        let result ← field bindings length (wanted required name) (fields.drivesOf name)
        return (name, result)) = .ok entry := by
    intro name _
    obtain ⟨made, fieldOk⟩ := each name
    exact ⟨(name, made), (Outcome.return_ok_iff _ _ _).2 ⟨made, fieldOk, rfl⟩⟩
  obtain ⟨entries, related⟩ := Outcome.related_of_each worked
  refine ⟨.ofEntries entries, ?_⟩
  unfold plainPulse
  rw [longest, Outcome.ok_bind]
  exact (Outcome.return_ok_iff _ _ _).2 ⟨entries, (Outcome.mapM_ok_iff _ _ _).2 related, rfl⟩

/-- A plain pulse of drives that are ready can be padded, field by field. -/
theorem plain_pulse_filled (plain : ∀ name, Plain (wanted required name))
    (ready : fields.Ready bindings) :
    ∃ result, plainPulse bindings required fields = .ok result ∧ ∀ name,
      (∀ made, result.get? name = some made →
        Filled bindings (fields.extent bindings) (wanted required name) (fields.drivesOf name)
          made) ∧
      (result.get? name = none → fields.drivesOf name = []) := by
  have fills : ∀ name, ∃ made, field bindings (fields.extent bindings) (wanted required name)
        (fields.drivesOf name) = .ok made ∧
      Filled bindings (fields.extent bindings) (wanted required name) (fields.drivesOf name)
        made := by
    intro name
    refine field_filled (plain name) (fun drive member => ?_) ?_ fun drive member => ?_
    · obtain ⟨given, found, inside⟩ := PerField.mem_drives_of member
      exact ready.each name given found drive inside
    · unfold PerField.drivesOf
      cases found : fields.get? name with
      | none => exact List.Pairwise.nil
      | some given => exact ready.apart name given found
    · obtain ⟨given, found, inside⟩ := PerField.mem_drives_of member
      exact PerField.drive_extent_le found inside
  obtain ⟨result, succeeds⟩ := plain_pulse_succeeds (longest_of_fields ready.each) fun name =>
    (fills name).imp fun _ both => both.1
  obtain ⟨length, longest, made, present⟩ := plain_pulse_fields succeeds
  obtain rfl := Except.ok.inj (longest.symm.trans (longest_of_fields ready.each))
  refine ⟨result, succeeds, fun name => ⟨fun field found => ?_, fun missing => ?_⟩⟩
  · obtain ⟨other, otherOk, filled⟩ := fills name
    obtain rfl := Except.ok.inj (otherOk.symm.trans (made name field found))
    exact filled
  · by_contra notEmpty
    have isGiven : (fields.get? name).isSome := by
      by_contra notGiven
      rw [Option.not_isSome_iff_eq_none] at notGiven
      exact notEmpty (by rw [PerField.drivesOf, notGiven]; rfl)
    obtain ⟨field, found⟩ := present name (.inl isGiven)
    cases missing.symm.trans found

theorem plain_pulse_retains (plain : ∀ name, Plain (wanted required name))
    (ready : fields.Ready bindings) :
    ∃ result, plainPulse bindings required fields = .ok result ∧
      fields.Retains bindings result := by
  obtain ⟨result, succeeds, filled⟩ := plain_pulse_filled plain ready
  have pads : ∀ name, ∀ drive ∈ fields.drivesOf name, ∃ longer,
      drive.waveform.pad bindings (fields.extent bindings) = .ok longer ∧
      Waveform.Piecewise bindings longer (fields.extent bindings) ∧
      ∀ target, longer.stretch bindings target = drive.waveform.stretch bindings target *
        rest (fields.extent bindings - drive.waveform.extent bindings) := by
    intro name drive member
    obtain ⟨given, found, inside⟩ := PerField.mem_drives_of member
    exact (ready.each name given found drive inside).piecewise.pad
      (PerField.drive_extent_le found inside)
  have lasting : result.EachDrive fun drive => drive.target.Unlisted ∧
      Waveform.Piecewise bindings drive.waveform (fields.extent bindings) := by
    intro name made found drive member
    rcases (((filled name).1 made found).mem_iff drive).1 member with
      ⟨given, givenMember, same, padOk⟩ | ⟨isZero, asked, _⟩
    · obtain ⟨longer, longerOk, piecewise, _⟩ := pads name given givenMember
      obtain rfl := Except.ok.inj (longerOk.symm.trans padOk)
      obtain ⟨source, sourceFound, inside⟩ := PerField.mem_drives_of givenMember
      exact ⟨same ▸ (ready.each name source sourceFound given inside).unlisted, piecewise⟩
    · refine ⟨(plain name).unlisted _ asked, ?_⟩
      rw [isZero]
      exact .constant (literal_counts 0) (literal_counts _) fields.extent_nonneg
  have unlisted : result.EachDrive (·.target.Unlisted) := lasting.mono fun _ both => both.1
  have apart : result.Apart := fun name made found => ((filled name).1 made found).apart
  have inGiven : ∀ name drive, drive ∈ fields.drivesOf name ↔
      fields.waveform? name drive.target = some drive.waveform := by
    intro name drive
    rw [PerField.waveform_some_iff (ready.each.mono fun _ drive => drive.unlisted) ready.apart]
    refine ⟨PerField.mem_drives_of, ?_⟩
    rintro ⟨given, found, member⟩
    rw [PerField.drivesOf, found]
    exact member
  have reached : ∀ name, ∀ drive ∈ fields.drivesOf name, ∃ made,
      result.get? name = some made ∧ Filled bindings (fields.extent bindings)
        (wanted required name) (fields.drivesOf name) made := by
    intro name drive member
    cases found : result.get? name with
    | none => exact absurd ((filled name).2 found) (List.ne_nil_of_mem member)
    | some made => exact ⟨made, rfl, (filled name).1 made found⟩
  have sameExtent : result.extent bindings = fields.extent bindings := by
    by_cases undriven : ∀ name, ¬result.Drives name
    · rw [PerField.extent_undriven undriven, PerField.extent_undriven]
      rintro name ⟨given, found, notEmpty⟩
      obtain ⟨drive, inside⟩ := List.exists_mem_of_ne_nil _ notEmpty
      have member : drive ∈ fields.drivesOf name := by
        rw [PerField.drivesOf, found]
        exact inside
      obtain ⟨made, madeFound, fills⟩ := reached name drive member
      obtain ⟨longer, padOk, _⟩ := pads name drive member
      exact undriven name ⟨made, madeFound, List.ne_nil_of_mem
        ((fills.mem_iff ⟨drive.target, longer⟩).2 (.inl ⟨drive, member, rfl, padOk⟩))⟩
    · push Not at undriven
      exact PerField.extent_of_lasts (lasting.mono fun _ both => both.2.lasts) undriven
  refine ⟨result, succeeds, ⟨lasting.mono fun _ both => ⟨both.1, both.2.own⟩, apart⟩, sameExtent,
    fun channel => ?_⟩
  obtain ⟨name, target⟩ := channel
  dsimp only
  cases given : fields.waveform? name target with
  | some waveform =>
      have member : ⟨target, waveform⟩ ∈ fields.drivesOf name := (inGiven name _).2 given
      obtain ⟨longer, padOk, piecewise, longerStretch⟩ := pads name _ member
      obtain ⟨made, madeFound, fills⟩ := reached name _ member
      have found : result.waveform? name target = some longer :=
        (PerField.waveform_some_iff unlisted apart _ _ _).2 ⟨made, madeFound,
          (fills.mem_iff ⟨target, longer⟩).2 (.inl ⟨_, member, rfl, padOk⟩)⟩
      rw [PerField.course_of_some found, PerField.course_of_some given, sameExtent,
        piecewise.extent_eq, sub_self, rest_zero, mul_one, longerStretch]
  | none =>
      rw [PerField.course_of_none given]
      cases found : result.waveform? name target with
      | none => rw [PerField.course_of_none found, sameExtent]
      | some waveform =>
          obtain ⟨made, madeFound, member⟩ :=
            (PerField.waveform_some_iff unlisted apart _ _ _).1 found
          rcases (((filled name).1 made madeFound).mem_iff _).1 member with
            ⟨drive, driveMember, same, _⟩ | ⟨isZero, _, _⟩
          · have isGiven := (inGiven name drive).1 driveMember
            rw [same] at isGiven
            cases given.symm.trans isGiven
          · have piecewise := (lasting name made madeFound _ member).2
            dsimp only at isZero
            rw [PerField.course_of_some found, sameExtent, piecewise.extent_eq, sub_self, rest_zero,
              mul_one, isZero, Waveform.zero_stretch rfl fields.extent_nonneg]

end Padding

namespace Padding

variable {required : PerField (List Modulation)} {total : Decimal}

theorem pulse_retains (plain : ∀ name, Plain (wanted required name)) {given : Pulse}
    (ready : given.Ready bindings) :
    ∃ result, pulse bindings required given = .ok result ∧ given.Retains bindings result := by
  unfold Pulse.Ready at ready
  induction given using Pulse.parts_induction with
  | plain fields =>
      obtain ⟨fields', fieldsOk, retains⟩ := plain_pulse_retains plain ready
      refine ⟨.plain fields', ?_, retains.ready, ?_, fun channel => ?_⟩
      · rw [pulse, fieldsOk]
        rfl
      · rw [Pulse.extent_plain, Pulse.extent_plain, retains.lasts]
      · rw [Pulse.course_plain, Pulse.course_plain, retains.same channel]
  | append parts ih =>
      rw [Pulse.each_append_iff] at ready
      obtain ⟨parts', each⟩ := Outcome.related_of_each fun part member =>
        ih part member (ready part member)
      refine ⟨.append parts', ?_, Pulse.appends.retains (each.imp fun _ _ both => both.2)⟩
      rw [pulse, (pulses_ok_iff _ _).2 (each.imp fun _ _ both => both.1)]
      rfl
  | slice inner interval _ => exact ready.2.elim
  | named name inner ih =>
      obtain ⟨inner', innerOk, retains⟩ := ih ready
      refine ⟨.named name inner', ?_, retains.ready, retains.lasts, retains.same⟩
      rw [pulse, innerOk]
      rfl

section

variable {zeros : PerField Field}
  (isZeros : zeros = required.map fun targets => .ofDrives (zeroDrives total targets))
include isZeros

omit [Natives] in
theorem mem_zero_fields (plain : ∀ name, Plain (wanted required name)) {name : FieldName}
    {field : Field} (found : zeros.get? name = some field) :
    Field.Apart field.drives ∧ ∀ drive ∈ field.drives,
      drive.target.Unlisted ∧ drive.waveform = .zero (.literal total) := by
  rw [isZeros, PerField.get_map, Option.map_eq_some_iff] at found
  obtain ⟨targets, targetsFound, rfl⟩ := found
  have plainTargets : Plain targets := by
    simpa [wanted, targetsFound] using plain name
  refine ⟨Field.of_drives_apart _, ?_⟩
  rw [plainTargets.zeros, zeroDrives, List.forall_mem_map]
  exact fun target member => ⟨plainTargets.unlisted target member, rfl⟩

/-- Every channel rests in the zeros that are put behind a pulse. -/
theorem zero_fields_rest (plain : ∀ name, Plain (wanted required name)) (nonneg : 0 ≤ total) :
    zeros.Ready bindings ∧ zeros.extent bindings ≤ total ∧
      ∀ name target, zeros.course bindings name target = rest (zeros.extent bindings) := by
  have lasting : ∀ name field, zeros.get? name = some field → ∀ drive ∈ field.drives,
      Waveform.Piecewise bindings drive.waveform total := by
    intro name field found drive member
    rw [((mem_zero_fields isZeros plain found).2 drive member).2]
    exact .constant (literal_counts 0) (literal_counts total) nonneg
  have unlisted : zeros.EachDrive (·.target.Unlisted) := fun name field found drive member =>
    ((mem_zero_fields isZeros plain found).2 drive member).1
  have apart : zeros.Apart := fun name field found => (mem_zero_fields isZeros plain found).1
  have short : zeros.extent bindings ≤ total := by
    rcases zeros.extent_reached bindings with
      zero | ⟨name, field, found, drive, member, reaches⟩
    · exact zero.trans_le nonneg
    · exact (reaches.symm.trans (lasting name field found drive member).extent_eq).le
  refine ⟨⟨fun name field found drive member => ⟨unlisted name field found drive member,
    (lasting name field found drive member).own⟩, apart⟩, short, fun name target => ?_⟩
  cases found : zeros.waveform? name target with
  | none => exact PerField.course_of_none found
  | some waveform =>
      obtain ⟨field, fieldFound, member⟩ :=
        (PerField.waveform_some_iff unlisted apart _ _ _).1 found
      have lasts := (lasting name field fieldFound _ member).extent_eq
      have isZero := ((mem_zero_fields isZeros plain fieldFound).2 _ member).2
      have whole : zeros.extent bindings = total :=
        le_antisymm short (lasts ▸ PerField.drive_extent_le fieldFound member)
      dsimp only at lasts isZero
      rw [PerField.course_of_some found, lasts, whole, sub_self, rest_zero, mul_one, isZero,
        Waveform.zero_stretch rfl nonneg]

end

theorem extend_rests (plain : ∀ name, Plain (wanted required name)) {padded : Pulse}
    (ready : padded.Ready bindings) (short : padded.extent bindings ≤ total) :
    ∃ length, 0 ≤ length ∧ padded.extent bindings + length ≤ total ∧
      (extend total required padded (padded.extent bindings)).Ready bindings ∧
      (extend total required padded (padded.extent bindings)).extent bindings =
        padded.extent bindings + length ∧
      ∀ name target,
        (extend total required padded (padded.extent bindings)).course bindings name target =
          padded.course bindings name target * rest length := by
  rcases extend_cases required padded total (padded.extent bindings) with
    ⟨_, same⟩ | ⟨shorter, same⟩
  · refine ⟨0, le_rfl, by rwa [add_zero], ?_⟩
    rw [same]
    exact ⟨ready, (add_zero _).symm, fun _ _ => by rw [rest_zero, mul_one]⟩
  · obtain ⟨zerosReady, zerosShort, zerosRest⟩ :=
      @zero_fields_rest _ bindings required _ _ rfl plain (sub_pos.2 shorter).le
    rw [same]
    refine ⟨_, PerField.extent_nonneg _, le_sub_iff_add_le'.1 zerosShort, ?_, ?_,
      fun name target => ?_⟩
    · exact (Pulse.each_append_iff _).2
        (List.forall_mem_cons.2 ⟨ready, List.forall_mem_singleton.2 zerosReady⟩)
    · simp [Pulse.extent_append, Pulse.extent_plain]
    · simp [Pulse.course_append, Pulse.course_plain, zerosRest]

end Padding

omit [Natives] in
theorem fold_max_eq (lengths : List Decimal) (start : Decimal) (nonneg : 0 ≤ start) :
    lengths.foldl max start = max start (greatest lengths) := by
  induction lengths generalizing start with
  | nil => exact (max_eq_left nonneg).symm
  | cons first others ih =>
      rw [List.foldl_cons, ih _ (nonneg.trans (le_max_left _ _)), max_assoc]
      rfl

namespace Padding

variable {requirements : Requirements} {pulses : PerCoupling Pulse}

def used (requirements : Requirements) (pulses : PerCoupling Pulse) : List Coupling :=
  Coupling.all.filter fun coupling =>
    (pulses.get? coupling).isSome || (requirements.get? coupling).isSome

omit [Natives] in
/-- A plain sequence lasts as long as the longest pulse that is padded for it. -/
theorem greatest_given (requirements : Requirements) (pulses : PerCoupling Pulse) :
    greatest ((used requirements pulses).map fun coupling =>
      (givenPulse pulses coupling).extent bindings) = pulses.extent bindings := by
  refine greatest_eq pulses.extent_nonneg (List.forall_mem_map.2 fun coupling _ =>
    pulses.given_pulse_extent_le coupling) ?_
  refine (pulses.extent_reached bindings).imp id fun ⟨coupling, pulse, found, reaches⟩ => ?_
  refine List.mem_map.2
    ⟨coupling, List.mem_filter.2 ⟨mem_all_couplings coupling, by simp [found]⟩, ?_⟩
  rw [givenPulse, found]
  exact reaches

/-- Padding a plain sequence extends the padded pulses to the longest of them. -/
theorem plain_sequence_extends {padded : Coupling → Pulse} {lengths : Coupling → Decimal}
    (each : ∀ coupling, pulse bindings (requirements.of coupling) (givenPulse pulses coupling) =
      .ok (padded coupling))
    (lasts : ∀ coupling,
      (padded coupling).symbolicDuration.eval bindings = .ok (lengths coupling)) :
    plainSequence bindings requirements pulses = .ok (.ofEntries
      ((used requirements pulses).map fun coupling => (coupling,
        extend (greatest ((used requirements pulses).map lengths)) (requirements.of coupling)
          (padded coupling) (lengths coupling)))) := by
  have rows : (used requirements pulses).mapM (fun coupling => do
        let result ← pulse bindings (requirements.of coupling) (givenPulse pulses coupling)
        let duration ← result.symbolicDuration.eval bindings
        return (coupling, requirements.of coupling, result, duration)) =
      .ok ((used requirements pulses).map fun coupling =>
        (coupling, requirements.of coupling, padded coupling, lengths coupling)) := by
    rw [Outcome.mapM_ok_iff, List.forall₂_map_right_iff, List.forall₂_same]
    intro coupling _
    rw [each, Outcome.ok_bind, lasts, Outcome.ok_bind]
    rfl
  refine (Outcome.return_ok_iff _ _ _).2 ⟨_, rows, ?_⟩
  have total : greatest ((used requirements pulses).map lengths) =
      ((used requirements pulses).map lengths).foldl max 0 := by
    rw [fold_max_eq _ _ le_rfl, max_eq_right (greatest_nonneg _)]
  rw [total, List.map_map, List.foldl_map, List.foldl_map]
  rfl

omit [Natives] in
theorem get_used (requirements : Requirements) (pulses : PerCoupling Pulse)
    (extended : Coupling → Pulse) (coupling : Coupling) (pulse : Pulse) :
    (PerCoupling.ofEntries ((used requirements pulses).map fun coupling =>
        (coupling, extended coupling))).get? coupling = some pulse ↔
      coupling ∈ used requirements pulses ∧ extended coupling = pulse := by
  have once : (((used requirements pulses).map fun coupling =>
      (coupling, extended coupling)).map Prod.fst).Nodup := by
    rw [List.map_map]
    exact (all_couplings_once.filter _).map fun _ _ same => same
  simp [PerCoupling.get_of_entries_iff _ once]

theorem plain_sequence_retains
    (plain : ∀ coupling name, Plain (wanted (requirements.of coupling) name))
    (ready : pulses.EachPulse (Pulse.Ready bindings)) :
    ∃ result, plainSequence bindings requirements pulses = .ok result ∧
      pulses.Retains bindings result := by
  choose padded padsOk retains using fun coupling =>
    pulse_retains (plain coupling) (PerCoupling.given_pulse_ready ready coupling)
  have made := plain_sequence_extends padsOk fun coupling =>
    (retains coupling).ready.duration.evaluates
  have lengths :
      ((used requirements pulses).map fun coupling => (padded coupling).extent bindings) =
      (used requirements pulses).map fun coupling => (givenPulse pulses coupling).extent bindings :=
    List.map_congr_left fun coupling _ => (retains coupling).lasts
  rw [lengths, greatest_given] at made
  have short : ∀ coupling, (padded coupling).extent bindings ≤ pulses.extent bindings :=
    fun coupling => (retains coupling).lasts ▸ pulses.given_pulse_extent_le coupling
  choose pause nonneg within extendedReady extendedExtent extendedCourse using fun coupling =>
    extend_rests (plain coupling) (retains coupling).ready (short coupling)
  have get := get_used requirements pulses fun coupling => extend (pulses.extent bindings)
    (requirements.of coupling) (padded coupling) ((padded coupling).extent bindings)
  generalize PerCoupling.ofEntries _ = result at made get
  have sameExtent : result.extent bindings = pulses.extent bindings := by
    refine greatest_eq pulses.extent_nonneg ?_ ((pulses.extent_reached bindings).imp id ?_)
    · rw [List.forall_mem_map]
      rintro ⟨coupling, pulse⟩ member
      obtain ⟨_, rfl⟩ := (get coupling pulse).1 ((PerCoupling.mem_entries_iff _ _ _).1 member)
      exact (extendedExtent coupling).trans_le (within coupling)
    · -- The longest of the given pulses is not extended.
      rintro ⟨coupling, pulse, found, reaches⟩
      have isUsed : coupling ∈ used requirements pulses :=
        List.mem_filter.2 ⟨mem_all_couplings coupling, by simp [found]⟩
      have whole : (padded coupling).extent bindings = pulses.extent bindings := by
        rw [(retains coupling).lasts, givenPulse, found]
        exact reaches
      refine List.mem_map.2 ⟨(coupling, _), (PerCoupling.mem_entries_iff _ _ _).2
        ((get coupling _).2 ⟨isUsed, rfl⟩), le_antisymm ?_ ?_⟩
      · exact (extendedExtent coupling).trans_le (within coupling)
      · rw [extendedExtent, whole]
        exact le_add_of_nonneg_right (nonneg coupling)
  refine ⟨result, made, fun coupling pulse found => ?_, sameExtent, fun channel => ?_⟩
  · exact ((get coupling pulse).1 found).2 ▸ extendedReady coupling
  · obtain ⟨coupling, name, target⟩ := channel
    unfold PerCoupling.course
    dsimp only
    rw [sameExtent]
    by_cases isUsed : coupling ∈ used requirements pulses
    · have given : givenPulse result coupling = extend (pulses.extent bindings)
          (requirements.of coupling) (padded coupling) ((padded coupling).extent bindings) := by
        rw [givenPulse, (get coupling _).2 ⟨isUsed, rfl⟩, Option.getD_some]
      have remains : 0 ≤ pulses.extent bindings - (padded coupling).extent bindings -
          pause coupling := by
        rw [sub_sub]
        exact sub_nonneg.2 (within coupling)
      rw [given, extendedCourse, extendedExtent, mul_assoc, ← sub_sub,
        ← rest_add (nonneg coupling) remains, add_sub_cancel,
        (retains coupling).same (name, target), (retains coupling).lasts]
    · have missing : givenPulse result coupling = givenPulse pulses coupling := by
        have notGiven : pulses.get? coupling = none := by
          by_contra given
          exact isUsed (List.mem_filter.2 ⟨mem_all_couplings coupling, by
            simp [Option.isSome_iff_ne_none.2 given]⟩)
        have notMade : result.get? coupling = none := by
          rw [Option.eq_none_iff_forall_ne_some]
          exact fun pulse found => isUsed ((get coupling pulse).1 found).1
        rw [givenPulse, givenPulse, notGiven, notMade]
      rw [missing]

end Padding

theorem Padding.sequence_retains {requirements : Requirements}
    (plain : ∀ coupling name, Plain (wanted (requirements.of coupling) name)) {given : Sequence}
    (ready : given.Ready bindings) :
    ∃ result, sequence bindings requirements given = .ok result ∧
      given.Retains bindings result := by
  unfold Sequence.Ready at ready
  induction given using Sequence.parts_induction with
  | plain pulses =>
      obtain ⟨pulses', pulsesOk, retains⟩ := plain_sequence_retains plain ready
      refine ⟨.plain pulses', ?_, retains.ready, ?_, fun channel => ?_⟩
      · rw [sequence, pulsesOk]
        rfl
      · rw [Sequence.extent_plain, Sequence.extent_plain, retains.lasts]
      · rw [Sequence.course_plain, Sequence.course_plain, retains.same]
  | append parts ih =>
      rw [Sequence.each_append_iff] at ready
      obtain ⟨parts', each⟩ := Outcome.related_of_each fun part member =>
        ih part member (ready part member)
      refine ⟨.append parts', ?_, Sequence.appends.retains (each.imp fun _ _ both => both.2)⟩
      rw [sequence, (sequences_ok_iff _ _).2 (each.imp fun _ _ both => both.1)]
      rfl
  | slice inner interval _ => exact ready.2.elim
  | named name inner ih =>
      obtain ⟨inner', innerOk, retains⟩ := ih ready
      refine ⟨.named name inner', ?_, retains.ready, retains.lasts, retains.same⟩
      rw [sequence, innerOk]
      rfl

omit [Natives] in
theorem Requirements.of_channels_plain {channels : List Channel}
    (unlisted : ∀ channel ∈ channels, channel.target.Unlisted)
    (distinct : channels.Pairwise fun earlier later => later.same earlier = false)
    (coupling : Coupling) (name : FieldName) :
    Padding.Plain (Padding.wanted ((ofChannels channels).of coupling) name) := by
  rw [wanted_of_channels]
  split_ifs
  · refine ⟨?_, targets_of_distinct (fun channel member => (unlisted channel member).each) distinct
      coupling name⟩
    unfold targetsOf
    dsimp only
    split_ifs
    · exact List.forall_mem_singleton.2 fun _ => Modulation.noConfusion
    · rw [List.forall_mem_map]
      exact fun channel member => unlisted channel (List.mem_of_mem_filter member)
  · exact ⟨List.forall_mem_nil _, List.Pairwise.nil⟩

namespace Sequence

variable {given : Sequence}

omit [Natives] in
theorem Ready.holds (ready : given.Ready bindings) {coupling : Coupling} {fields : PerField Field}
    (holds : given.Holds coupling fields) : fields.Ready bindings := by
  obtain ⟨pulses, pulsesMember, pulse, found, member⟩ := holds
  exact (Each.plains given ready pulses pulsesMember coupling pulse found).plains pulse fields
    member

omit [Natives] in
theorem Ready.unlisted (ready : given.Ready bindings) :
    ∀ channel ∈ given.channels, channel.target.Unlisted := by
  intro channel member
  obtain ⟨fields, holds, field, found, used⟩ := exists_use member
  obtain ⟨drive, driveMember, same⟩ := List.mem_map.1 used
  exact same ▸ ((ready.holds holds).each _ field found drive driveMember).unlisted

/-- A sequence of drives that are ready can be padded, and keeps its duration and its courses. -/
theorem Ready.pad (ready : given.Ready bindings) :
    ∃ padded, given.pad bindings = .ok padded ∧ given.Retains bindings padded :=
  Padding.sequence_retains (Requirements.of_channels_plain ready.unlisted
    (channels_distinct (ready.fixed.mono given Scalar.fixed_family.tidied))) ready

end Sequence

end Analog
