import Analog.Proofs.FlatChannels
import Analog.Task

/-!
# Flat sequences

Flattening gives every channel one waveform. If the plain pulses of a sequence are level,
all waveforms of its flat form have the same duration, or all have none because some slice
reaches too far. If the sequence has a duration then so have they, and it is the same. No
channel of the flat form comes twice.
-/

set_option autoImplicit false

namespace Analog

variable {bindings : ScalarBindings}

def Worth (bindings : ScalarBindings) (span : Option Decimal) (scalar : Scalar) : Prop :=
  ∀ value, scalar.eval bindings = .ok value ↔ span = some value

def Sums (span : Option Decimal) (spans : List (Option Decimal)) : Prop :=
  ∀ value, span = some value ↔
    ∃ values, List.Forall₂ (fun part number => part = some number) spans values ∧ value = values.sum

/-- What an interval leaves of a span; if it reaches too far there is nothing. -/
def Cuts (bindings : ScalarBindings) (interval : Interval) (span rest : Option Decimal) : Prop :=
  ∀ value, rest = some value ↔ ∃ extent start stop, span = some extent ∧
    Scalar.evalBound bindings interval.start = .ok start ∧
    Scalar.evalBound bindings interval.stop = .ok stop ∧ sliceLength extent start stop = .ok value

theorem exists_span {condition : Decimal → Prop}
    (once : ∀ first second, condition first → condition second → first = second) :
    ∃ span : Option Decimal, ∀ value, span = some value ↔ condition value := by
  by_cases satisfied : ∃ value, condition value
  · obtain ⟨found, holds⟩ := satisfied
    refine ⟨some found, fun value => ⟨?_, fun other => ?_⟩⟩
    · rintro ⟨⟩
      exact holds
    · rw [once found value holds other]
  · refine ⟨none, fun value => ⟨?_, fun holds => absurd ⟨value, holds⟩ satisfied⟩⟩
    rintro ⟨⟩

theorem exists_sum (spans : List (Option Decimal)) : ∃ span, Sums span spans := by
  apply exists_span
  rintro _ _ ⟨firsts, firstEach, rfl⟩ ⟨seconds, secondEach, rfl⟩
  congr 1
  induction firstEach generalizing seconds with
  | nil =>
      cases secondEach
      rfl
  | cons found _ ih =>
      cases secondEach with
      | cons otherFound others =>
          rw [found, Option.some.injEq] at otherFound
          rw [otherFound, ih _ others]

theorem exists_cut (interval : Interval) (span : Option Decimal) :
    ∃ rest, Cuts bindings interval span rest := by
  apply exists_span
  rintro first second ⟨extent, start, stop, isExtent, startOk, stopOk, length⟩
    ⟨extent', start', stop', isExtent', startOk', stopOk', length'⟩
  rw [isExtent, Option.some.injEq] at isExtent'
  rw [startOk, Except.ok.injEq] at startOk'
  rw [stopOk, Except.ok.injEq] at stopOk'
  rw [isExtent', startOk', stopOk', length', Except.ok.injEq] at length
  exact length.symm

theorem worth_of_known {scalar : Scalar} {value : Decimal}
    (known : Scalar.Known bindings scalar value) : Worth bindings (some value) scalar := by
  intro other
  rw [known.evaluates, Except.ok.injEq, Option.some.injEq]

/-- The longest of some durations, all of them being worth a span or nothing. -/
theorem longest_worth {durations : List Scalar} {span : Option Decimal}
    (nonneg : ∀ value ∈ span, 0 ≤ value)
    (tidied : ∀ duration ∈ durations, duration.tidy = true)
    (each : ∀ duration ∈ durations, Worth bindings span duration ∨ Worth bindings (some 0) duration)
    (reached : ∃ duration ∈ durations, Worth bindings span duration) :
    Worth bindings span (longest durations) := by
  obtain ⟨longestOne, member, isSpan⟩ := reached
  intro value
  constructor
  · intro evaluates
    obtain ⟨number, numberOk⟩ := eval_of_longest tidied evaluates longestOne member
    have isNumber := (isSpan number).1 numberOk
    have known : Scalar.Known bindings (longest durations) number := by
      apply longest_known
      · intro duration durationMember
        rcases each duration durationMember with worth | zero
        · exact ⟨number, ⟨tidied duration durationMember, (worth number).2 isNumber⟩, le_rfl⟩
        · exact ⟨0, ⟨tidied duration durationMember, (zero 0).2 rfl⟩, nonneg number isNumber⟩
      · exact ⟨longestOne, member, tidied longestOne member, numberOk⟩
    rw [known.evaluates, Except.ok.injEq] at evaluates
    rw [isNumber, evaluates]
  · intro isValue
    have known : Scalar.Known bindings (longest durations) value := by
      apply longest_known
      · intro duration durationMember
        rcases each duration durationMember with worth | zero
        · exact ⟨value, ⟨tidied duration durationMember, (worth value).2 isValue⟩, le_rfl⟩
        · exact ⟨0, ⟨tidied duration durationMember, (zero 0).2 rfl⟩, nonneg value isValue⟩
      · exact ⟨longestOne, member, tidied longestOne member, (isSpan value).2 isValue⟩
    exact known.evaluates

/-- A waveform with tidy scalars that lasts for the given span, as number and as expression. -/
structure Waveform.Measured (bindings : ScalarBindings) (span : Option Decimal)
    (waveform : Waveform) : Prop where
  tidied : waveform.Each (·.tidy)
  lasts : ∀ value, waveform.duration bindings = .ok value ↔ span = some value
  worth : Worth bindings span waveform.symbolicDuration

namespace Waveform

variable {span : Option Decimal}

theorem Measured.nonneg {waveform : Waveform} (measured : waveform.Measured bindings span) :
    ∀ value ∈ span, 0 ≤ value :=
  fun value isValue => duration_nonneg ((measured.lasts value).2 isValue)

theorem measured_of_lasts {waveform : Waveform} {length : Decimal}
    (tidied : waveform.Each (·.tidy)) (lasts : waveform.duration bindings = .ok length) :
    waveform.Measured bindings (some length) := by
  refine ⟨tidied, fun value => ?_, ?_⟩
  · rw [lasts, Except.ok.injEq, Option.some.injEq]
  · exact worth_of_known (symbolic_duration_known waveform length tidied lasts)

theorem zero_measured {length : Scalar} (tidied : length.tidy = true)
    (worth : Worth bindings span length) (nonneg : ∀ value ∈ span, 0 ≤ value) :
    (zero length).Measured bindings span := by
  refine ⟨constant_each rfl tidied, fun value => ?_, worth⟩
  rw [zero, duration, leaf_duration_ok_iff, worth value]
  exact ⟨And.left, fun isValue => ⟨isValue, nonneg value isValue⟩⟩

theorem append_measured {parts : List Waveform} {spans : List (Option Decimal)}
    (each : List.Forall₂ (Measured bindings) spans parts) (sums : Sums span spans) :
    (append parts).Measured bindings span := by
  have tidied : ∀ part ∈ parts, part.Each (·.tidy) := by
    intro part member
    obtain ⟨own, _, measured⟩ := Outcome.source_of_mem each member
    exact measured.tidied
  -- Numbers for all parts are numbers for all spans.
  have related : ∀ {relation : Waveform → Decimal → Prop} (values : List Decimal),
      (∀ own part, Measured bindings own part → ∀ value, relation part value ↔ own = some value) →
      (List.Forall₂ relation parts values ↔
        List.Forall₂ (fun own number => own = some number) spans values) := by
    intro relation values agrees
    clear tidied sums
    induction each generalizing values with
    | nil => simp
    | cons measured _ ih => cases values <;> simp [agrees _ _ measured, ih]
  refine ⟨append_each tidied, ?_, ?_⟩
  · intro value
    rw [duration, total_duration_ok_iff, sums value]
    refine exists_congr fun values => and_congr_left fun _ => ?_
    exact related values fun own given measured => measured.lasts
  · intro value
    rw [symbolicDuration, symbolic_durations_eq_map, sum_of_durations_ok_iff, sums value]
    simp only [List.forall₂_map_left_iff]
    refine exists_congr fun values => and_congr_left fun _ => ?_
    exact related values fun own given measured => measured.worth

theorem slice_measured {inner : Waveform} {interval : Interval} {rest : Option Decimal}
    (measured : inner.Measured bindings span) (bounds : interval.Each (·.tidy))
    (cuts : Cuts bindings interval span rest) : (slice inner interval).Measured bindings rest := by
  refine ⟨(each_iff _).2 ⟨bounds, by simpa [children] using measured.tidied⟩, ?_, ?_⟩
  · intro value
    rw [slice_duration_ok_iff, cuts value]
    simp only [measured.lasts]
  · intro value
    rw [symbolicDuration, Scalar.eval_slice_ok_iff, cuts value]
    simp only [measured.worth _]

end Waveform

namespace Flat

/-- A flat pulse whose drives all last for the given span. -/
structure Measured (bindings : ScalarBindings) (span : Option Decimal) (fields : FlatPulse) :
    Prop where
  targets : PerField.EachDrive (fun drive => drive.target.EachWeight (·.tidy)) fields
  waveforms : PerField.EachDrive (fun drive => drive.waveform.Measured bindings span) fields
  apart : PerField.Apart fields

variable {span : Option Decimal}

theorem measured_undriven {fields : FlatPulse} (undriven : ∀ name, ¬fields.Drives name) :
    Measured bindings span fields := by
  have empty : ∀ name field, fields.get? name = some field → field.drives = [] := by
    intro name field found
    by_contra notEmpty
    exact undriven name ⟨field, found, notEmpty⟩
  refine ⟨fun name field found => ?_, fun name field found => ?_, fun name field found => ?_⟩
  · simp [empty name field found]
  · simp [empty name field found]
  · rw [empty name field found]
    exact List.Pairwise.nil

/-- A flat pulse with an expression for how long it lasts. -/
structure Piece (bindings : ScalarBindings) (span : Option Decimal) (part : FlatPulse × Scalar) :
    Prop where
  measured : Measured bindings span part.1
  tidied : part.2.tidy = true
  worth : Worth bindings span part.2
  nonneg : ∀ value ∈ span, 0 ≤ value

theorem piece_of_measured {part : FlatPulse × Scalar} (piece : Piece bindings span part)
    (name : FieldName) (target : Modulation) :
    (pieceOf name target part).Measured bindings span := by
  have zero := Waveform.zero_measured piece.tidied piece.worth piece.nonneg
  unfold pieceOf
  cases found : part.1.get? name with
  | none => exact zero
  | some field =>
      change ((field.lookup? target).getD (Waveform.zero part.2)).Measured bindings span
      unfold Field.lookup?
      cases lookedUp : field.drives.find? (·.target.same target) with
      | none => exact zero
      | some drive =>
          exact piece.measured.waveforms name field found drive (List.mem_of_find?_eq_some lookedUp)

/-- Flat pulses one after the other last for the sum of their spans. -/
theorem join_measured {parts : List (FlatPulse × Scalar)} {spans : List (Option Decimal)}
    (each : List.Forall₂ (Piece bindings) spans parts) (sums : Sums span spans) :
    Measured bindings span (join parts) := by
  refine ⟨?_, ?_, join_apart parts⟩
  · intro name field found drive member
    obtain ⟨_, rfl⟩ := (get_join_iff parts name field).1 found
    rw [join_field_drives] at member
    obtain ⟨target, targetMember, rfl⟩ := List.mem_map.1 member
    obtain ⟨fields, fieldsMember, source, sourceFound, isTarget⟩ :=
      (targets_of_spec name _).2.1 target targetMember
    obtain ⟨part, partMember, rfl⟩ := List.mem_map.1 fieldsMember
    obtain ⟨sourceDrive, sourceMember, rfl⟩ := List.mem_map.1 isTarget
    obtain ⟨own, _, piece⟩ := Outcome.source_of_mem each partMember
    exact piece.measured.targets name source sourceFound sourceDrive sourceMember
  · intro name field found drive member
    obtain ⟨_, rfl⟩ := (get_join_iff parts name field).1 found
    rw [join_field_drives] at member
    obtain ⟨target, _, rfl⟩ := List.mem_map.1 member
    refine Waveform.append_measured ?_ sums
    rw [List.forall₂_map_right_iff]
    exact each.imp fun own part piece => piece_of_measured piece name target

theorem cut_field_drives {field : Field} (interval : Interval) (apart : Field.Apart field.drives) :
    (cutField interval field).drives =
      field.drives.map fun drive => ⟨drive.target, .slice drive.waveform interval⟩ := by
  unfold cutField
  apply Field.of_drives_of_apart
  rw [Field.Apart, List.pairwise_map]
  exact apart

theorem cut_measured {fields : FlatPulse} {interval : Interval} {rest : Option Decimal}
    (measured : Measured bindings span fields) (bounds : interval.Each (·.tidy))
    (cuts : Cuts bindings interval span rest) : Measured bindings rest (cut interval fields) := by
  have get : ∀ name field, (cut interval fields).get? name = some field → ∃ source,
      fields.get? name = some source ∧ field.drives = source.drives.map fun drive =>
        ⟨drive.target, .slice drive.waveform interval⟩ := by
    intro name field found
    rw [cut, PerField.get_map, Option.map_eq_some_iff] at found
    obtain ⟨source, sourceFound, rfl⟩ := found
    exact ⟨source, sourceFound, cut_field_drives interval (measured.apart name source sourceFound)⟩
  refine ⟨?_, ?_, cut_apart interval fields⟩
  · intro name field found
    obtain ⟨source, sourceFound, same⟩ := get name field found
    rw [same, List.forall_mem_map]
    exact measured.targets name source sourceFound
  · intro name field found
    obtain ⟨source, sourceFound, same⟩ := get name field found
    rw [same, List.forall_mem_map]
    exact fun drive member => Waveform.slice_measured
      (measured.waveforms name source sourceFound drive member) bounds cuts

theorem Measured.nonneg {fields : FlatPulse} (measured : Measured bindings span fields)
    {name : FieldName} (drives : fields.Drives name) : ∀ value ∈ span, 0 ≤ value := by
  obtain ⟨field, found, notEmpty⟩ := drives
  obtain ⟨drive, member⟩ := List.exists_mem_of_ne_nil _ notEmpty
  exact (measured.waveforms name field found drive member).nonneg

theorem Measured.tidied {fields : FlatPulse} (measured : Measured bindings span fields) :
    (Pulse.plainDuration fields).tidy = true :=
  PerField.plain_duration_each Scalar.tidy_family
    (measured.waveforms.mono fun _ waveform => waveform.tidied)

/-- The duration of a flat pulse that drives anything is the span of its drives. -/
theorem Measured.duration {fields : FlatPulse} (measured : Measured bindings span fields)
    {name : FieldName} (drives : fields.Drives name) :
    Worth bindings span (Pulse.plainDuration fields) := by
  have nonneg := measured.nonneg drives
  have tidied : ∀ name field, fields.get? name = some field →
      ∀ duration ∈ field.drives.map (·.waveform.symbolicDuration), duration.tidy = true := by
    intro name field found
    rw [List.forall_mem_map]
    exact fun drive member => Waveform.symbolic_duration_each Scalar.tidy_family _
      (measured.waveforms name field found drive member).tidied
  have driven : ∀ name field, fields.get? name = some field → field.drives ≠ [] →
      Worth bindings span field.symbolicDuration := by
    intro name field found notEmpty
    obtain ⟨drive, member⟩ := List.exists_mem_of_ne_nil _ notEmpty
    apply longest_worth nonneg (tidied name field found)
    · rw [List.forall_mem_map]
      exact fun other otherMember =>
        Or.inl (measured.waveforms name field found other otherMember).worth
    · exact ⟨_, List.mem_map.2 ⟨drive, member, rfl⟩,
        (measured.waveforms name field found drive member).worth⟩
  apply longest_worth nonneg
  · rw [List.forall_mem_map, Prod.forall]
    intro name field member
    rw [PerField.mem_entries_iff] at member
    exact longest_each Scalar.tidy_family (tidied name field member)
  · rw [List.forall_mem_map, Prod.forall]
    intro name field member
    rw [PerField.mem_entries_iff] at member
    by_cases empty : field.drives = []
    · right
      rw [Field.symbolicDuration, empty]
      exact worth_of_known ⟨rfl, rfl⟩
    · exact Or.inl (driven name field member empty)
  · obtain ⟨field, found, notEmpty⟩ := drives
    exact ⟨_, List.mem_map.2 ⟨(name, field), (PerField.mem_entries_iff _ _ _).2 found, rfl⟩,
      driven name field found notEmpty⟩

end Flat

namespace Pulse

theorem undriven_iff (pulse : Pulse) : pulse.Undriven ↔ ∀ name, ¬pulse.flatten.Drives name := by
  simp only [Undriven, pulse.flatten_gathers.drives_iff, not_exists, not_and]
  exact ⟨fun undriven name fields member => undriven fields member name,
    fun undriven fields member name => undriven name fields member⟩

theorem piece_of_flat {pulse : Pulse} {length : Decimal}
    (measured : Flat.Measured bindings (some length) pulse.flatten)
    (evaluates : pulse.symbolicDuration.eval bindings = .ok length) :
    Flat.Piece bindings (some length) (pulse.flatten, plainDuration pulse.flatten) := by
  have known : Worth bindings (some length) (plainDuration pulse.flatten) ∧ 0 ≤ length := by
    by_cases driven : ∃ name, pulse.flatten.Drives name
    · obtain ⟨name, drives⟩ := driven
      exact ⟨measured.duration drives, measured.nonneg drives length rfl⟩
    · rw [not_exists] at driven
      rw [pulse.undriven_duration length ((undriven_iff pulse).2 driven) evaluates]
      exact ⟨worth_of_known (PerField.plain_duration_zero driven), le_rfl⟩
  exact ⟨measured, measured.tidied, known.1, by simpa using known.2⟩

theorem flatten_measured (pulse : Pulse) (length : Decimal) (tidied : pulse.EachScalar (·.tidy))
    (level : ∀ fields ∈ pulse.plains, fields.Level bindings)
    (evaluates : pulse.symbolicDuration.eval bindings = .ok length) :
    Flat.Measured bindings (some length) pulse.flatten := by
  unfold EachScalar at tidied
  induction pulse using Pulse.parts_induction generalizing length with
  | plain fields =>
      rw [each_plain_iff] at tidied
      obtain ⟨⟨time, lasts⟩, apart⟩ := level fields (by simp [plains])
      rw [symbolicDuration] at evaluates
      by_cases driven : ∃ name, fields.Drives name
      · have known := PerField.plain_duration_known (tidied.mono fun _ drive => drive.waveform)
          lasts driven
        rw [known.evaluates, Except.ok.injEq] at evaluates
        subst evaluates
        refine ⟨tidied.mono fun _ drive => drive.target, ?_, apart⟩
        exact fun name field found drive member => Waveform.measured_of_lasts
          (tidied name field found drive member).waveform (lasts name field found drive member)
      · rw [not_exists] at driven
        exact Flat.measured_undriven driven
  | append parts ih =>
      obtain ⟨values, each, rfl⟩ := (append_duration_ok_iff parts length).1 evaluates
      rw [each_append_iff] at tidied
      have pieces := Outcome.related_of_mem each fun part member value valueOk =>
        piece_of_flat (ih part member value (tidied part member) (fun fields found => level fields (by
          rw [plains, mem_plains_all]
          exact ⟨part, member, found⟩)) valueOk) valueOk
      rw [flatten, flatten_all_eq_map, List.map_map]
      refine @Flat.join_measured bindings (some values.sum) _ (values.map some) ?_ ?_
      · rw [List.forall₂_map_left_iff, List.forall₂_map_right_iff]
        exact pieces.flip
      · intro value
        simp only [List.forall₂_map_left_iff, Option.some.injEq, List.forall₂_eq_eq_eq]
        constructor
        · exact fun same => ⟨values, rfl, same.symm⟩
        · rintro ⟨_, same, total⟩
          rw [same, total]
  | slice inner interval ih =>
      obtain ⟨extent, start, stop, extentOk, startOk, stopOk, lengthOk⟩ :=
        (Scalar.eval_slice_ok_iff _ _ _ _).1 evaluates
      refine Flat.cut_measured (ih extent tidied.1 level extentOk) tidied.2 fun value => ?_
      simp only [Option.some.injEq]
      constructor
      · rintro rfl
        exact ⟨extent, start, stop, rfl, startOk, stopOk, lengthOk⟩
      · rintro ⟨_, start', stop', rfl, startOk', stopOk', lengthOk'⟩
        rw [startOk, Except.ok.injEq] at startOk'
        rw [stopOk, Except.ok.injEq] at stopOk'
        rw [← startOk', ← stopOk', lengthOk, Except.ok.injEq] at lengthOk'
        exact lengthOk'
  | named name inner ih => exact ih length tidied level evaluates

end Pulse

namespace FlatSequence

variable {span : Option Decimal} {flat : FlatSequence}

def Driven (flat : FlatSequence) : Prop :=
  ∃ coupling name, (of flat coupling).Drives name

theorem of_get {coupling : Coupling} {fields : FlatPulse} (found : flat.get? coupling = some fields) :
    of flat coupling = fields := by
  rw [of, found, Option.getD_some]

/-- All drives of a flat sequence last for the given span, and so does the sequence. -/
structure Spans (bindings : ScalarBindings) (span : Option Decimal) (flat : FlatSequence) :
    Prop where
  measured : ∀ coupling, Flat.Measured bindings span (of flat coupling)
  worth : Worth bindings span (toSequence flat).symbolicDuration
  nonneg : ∀ value ∈ span, 0 ≤ value

theorem durations_of_entries (flat : FlatSequence) :
    ∀ duration ∈ (flat.map Pulse.plain).entries.map (·.2.symbolicDuration),
      ∃ coupling, duration = Pulse.plainDuration (of flat coupling) := by
  rw [List.forall_mem_map, Prod.forall]
  intro coupling pulse member
  rw [PerCoupling.mem_entries_iff, PerCoupling.get_map, Option.map_eq_some_iff] at member
  obtain ⟨fields, found, rfl⟩ := member
  exact ⟨coupling, by rw [of_get found]; rfl⟩

theorem tidied_of_measured (measured : ∀ coupling, Flat.Measured bindings span (of flat coupling)) :
    ∀ duration ∈ (flat.map Pulse.plain).entries.map (·.2.symbolicDuration),
      duration.tidy = true := by
  intro duration member
  obtain ⟨coupling, rfl⟩ := durations_of_entries flat duration member
  exact (measured coupling).tidied

theorem Spans.tidied (spans : Spans bindings span flat) :
    (toSequence flat).symbolicDuration.tidy = true :=
  longest_each Scalar.tidy_family (tidied_of_measured spans.measured)

theorem spans_of_undriven (undriven : ¬Driven flat) : Spans bindings (some 0) flat := by
  have idle : ∀ coupling name, ¬(of flat coupling).Drives name :=
    fun coupling name drives => undriven ⟨coupling, name, drives⟩
  refine ⟨fun coupling => Flat.measured_undriven (idle coupling), ?_, by simp⟩
  apply worth_of_known
  apply longest_zero
  intro duration member
  obtain ⟨coupling, rfl⟩ := durations_of_entries flat duration member
  exact PerField.plain_duration_zero (idle coupling)

theorem spans_of_driven (measured : ∀ coupling, Flat.Measured bindings span (of flat coupling))
    (driven : Driven flat) : Spans bindings span flat := by
  obtain ⟨coupling, name, drives⟩ := driven
  have nonneg := (measured coupling).nonneg drives
  refine ⟨measured, ?_, nonneg⟩
  apply longest_worth nonneg (tidied_of_measured measured)
  · intro duration member
    obtain ⟨other, rfl⟩ := durations_of_entries flat duration member
    by_cases otherDriven : ∃ name, (of flat other).Drives name
    · obtain ⟨otherName, otherDrives⟩ := otherDriven
      exact Or.inl ((measured other).duration otherDrives)
    · rw [not_exists] at otherDriven
      exact Or.inr (worth_of_known (PerField.plain_duration_zero otherDriven))
  · have isThere : ∃ fields, flat.get? coupling = some fields := by
      obtain ⟨field, found, _⟩ := drives
      unfold of at found
      cases isFields : flat.get? coupling with
      | none => simp [isFields] at found
      | some fields => exact ⟨fields, rfl⟩
    obtain ⟨fields, isFields⟩ := isThere
    refine ⟨_, List.mem_map.2 ⟨(coupling, .plain fields), ?_, rfl⟩, ?_⟩
    · rw [PerCoupling.mem_entries_iff, PerCoupling.get_map, isFields]
      rfl
    · rw [of_get isFields] at drives
      exact (of_get isFields ▸ measured coupling).duration drives

/-- A flat sequence whose drives last for a span, with a duration that the span agrees with. -/
theorem exists_spans {duration : Scalar}
    (measured : ∀ coupling, Flat.Measured bindings span (of flat coupling))
    (agrees : Driven flat → ∀ value, duration.eval bindings = .ok value → span = some value)
    (idle : ¬Driven flat → ∀ value, duration.eval bindings = .ok value → value = 0) :
    ∃ own, Spans bindings own flat ∧
      ∀ value, duration.eval bindings = .ok value → own = some value := by
  by_cases driven : Driven flat
  · exact ⟨span, spans_of_driven measured driven, agrees driven⟩
  · refine ⟨some 0, spans_of_undriven driven, fun value valueOk => ?_⟩
    rw [idle driven value valueOk]

end FlatSequence

namespace Sequence

theorem undriven_duration (sequence : Sequence) (length : Decimal)
    (tidied : sequence.EachScalar (·.tidy))
    (undriven : ∀ coupling fields, sequence.Holds coupling fields → ∀ name, ¬fields.Drives name)
    (evaluates : sequence.symbolicDuration.eval bindings = .ok length) : length = 0 := by
  unfold EachScalar at tidied
  induction sequence using Sequence.parts_induction generalizing length with
  | plain pulses =>
      have known : Scalar.Known bindings (plain pulses).symbolicDuration 0 := by
        have durations : ∀ duration ∈ pulses.entries.map (·.2.symbolicDuration),
            ∃ coupling pulse, pulses.get? coupling = some pulse ∧
              duration = pulse.symbolicDuration := by
          rw [List.forall_mem_map, Prod.forall]
          exact fun coupling pulse member =>
            ⟨coupling, pulse, (pulses.mem_entries_iff _ _).1 member, rfl⟩
        have tidyDurations : ∀ duration ∈ pulses.entries.map (·.2.symbolicDuration),
            duration.tidy = true := by
          intro duration member
          obtain ⟨coupling, pulse, found, rfl⟩ := durations duration member
          exact pulse.symbolic_duration_each Scalar.tidy_family (tidied coupling pulse found)
        apply longest_zero
        intro duration member
        obtain ⟨number, numberOk⟩ := eval_of_longest tidyDurations evaluates duration member
        refine ⟨tidyDurations duration member, ?_⟩
        obtain ⟨coupling, pulse, found, rfl⟩ := durations duration member
        rw [numberOk, pulse.undriven_duration number (fun fields inside => undriven coupling fields
          ⟨pulses, by simp [plains], pulse, found, inside⟩) numberOk]
      rw [known.evaluates, Except.ok.injEq] at evaluates
      exact evaluates.symm
  | append parts ih =>
      obtain ⟨values, each, rfl⟩ := (append_duration_ok_iff parts length).1 evaluates
      rw [each_append_iff] at tidied
      apply List.sum_eq_zero
      intro value member
      obtain ⟨part, partMember, valueOk⟩ := Outcome.source_of_mem each member
      exact ih part partMember value (tidied part partMember) (fun coupling fields holds =>
        undriven coupling fields ((holds_append_iff _ _ _).2 ⟨part, partMember, holds⟩)) valueOk
  | slice inner interval ih =>
      obtain ⟨extent, start, stop, extentOk, _, _, lengthOk⟩ :=
        (Scalar.eval_slice_ok_iff _ _ _ _).1 evaluates
      rw [ih extent tidied.1 undriven extentOk] at lengthOk
      exact slice_of_nothing lengthOk
  | named name inner ih => exact ih length tidied undriven evaluates

theorem undriven_flat_duration {sequence : Sequence} (tidied : sequence.EachScalar (·.tidy))
    (undriven : ¬FlatSequence.Driven sequence.flatten) (length : Decimal)
    (evaluates : sequence.symbolicDuration.eval bindings = .ok length) : length = 0 :=
  sequence.undriven_duration length tidied (fun coupling fields holds name drives =>
    undriven ⟨coupling, name, ((sequence.flatten_gathers coupling).drives_iff name).2
      ⟨fields, holds, drives⟩⟩) evaluates

/-- A plain sequence with a duration lasts as long as the pulses in it that drive anything. -/
theorem plain_duration_agrees {pulses : PerCoupling Pulse} {total value : Decimal}
    (tidied : pulses.EachPulse (·.EachScalar (·.tidy)))
    (lasts : pulses.EachPulse fun pulse =>
      pulse.Undriven ∨ pulse.symbolicDuration.eval bindings = .ok total)
    (nonneg : 0 ≤ total) {coupling : Coupling} {driven : Pulse}
    (found : pulses.get? coupling = some driven) (notUndriven : ¬driven.Undriven)
    (evaluates : (plain pulses).symbolicDuration.eval bindings = .ok value) : value = total := by
  have tidyDurations : ∀ duration ∈ pulses.entries.map (·.2.symbolicDuration),
      duration.tidy = true := by
    rw [List.forall_mem_map, Prod.forall]
    exact fun other pulse member => pulse.symbolic_duration_each Scalar.tidy_family
      (tidied other pulse ((pulses.mem_entries_iff _ _).1 member))
  have known : Scalar.Known bindings (plain pulses).symbolicDuration total := by
    apply longest_known
    · intro duration member
      obtain ⟨number, numberOk⟩ := eval_of_longest tidyDurations evaluates duration member
      have isTidy := tidyDurations duration member
      obtain ⟨⟨other, pulse⟩, pulseMember, rfl⟩ := List.mem_map.1 member
      rcases lasts other pulse ((pulses.mem_entries_iff _ _).1 pulseMember) with idle | same
      · rw [pulse.undriven_duration number idle numberOk] at numberOk
        exact ⟨0, ⟨isTidy, numberOk⟩, nonneg⟩
      · exact ⟨total, ⟨isTidy, same⟩, le_rfl⟩
    · have member : driven.symbolicDuration ∈ pulses.entries.map (·.2.symbolicDuration) :=
        List.mem_map.2 ⟨(coupling, driven), (pulses.mem_entries_iff _ _).2 found, rfl⟩
      refine ⟨_, member, tidyDurations _ member, ?_⟩
      exact (lasts coupling driven found).resolve_left notUndriven
  rw [known.evaluates, Except.ok.injEq] at evaluates
  exact evaluates.symm

/-- All channels of the flat form of a sequence last equally long, and if the sequence has a
duration then they last for that. -/
theorem flatten_spans (sequence : Sequence) (tidied : sequence.EachScalar (·.tidy))
    (level : ∀ pulses ∈ sequence.plains, pulses.Level bindings) :
    ∃ span, FlatSequence.Spans bindings span sequence.flatten ∧
      ∀ value, sequence.symbolicDuration.eval bindings = .ok value → span = some value := by
  induction sequence using Sequence.parts_induction with
  | plain pulses =>
      have pulsesTidy : pulses.EachPulse (·.EachScalar (·.tidy)) := tidied
      obtain ⟨plains, total, lasts⟩ := level pulses (by simp [Sequence.plains])
      have measured : ∀ coupling, Flat.Measured bindings (some total)
          (FlatSequence.of (plain pulses).flatten coupling) := by
        intro coupling
        rw [FlatSequence.of, flatten, PerCoupling.get_map]
        cases found : pulses.get? coupling with
        | none => exact Flat.measured_undriven PerField.not_drives_empty
        | some pulse =>
            rcases lasts coupling pulse found with undriven | evaluates
            · exact Flat.measured_undriven (pulse.undriven_iff.1 undriven)
            · exact pulse.flatten_measured total (pulsesTidy coupling pulse found)
                (plains coupling pulse found) evaluates
      refine FlatSequence.exists_spans measured (fun driven value evaluates => ?_)
        (undriven_flat_duration tidied)
      obtain ⟨coupling, name, drives⟩ := driven
      have nonneg := (measured coupling).nonneg drives total rfl
      obtain ⟨fields, ⟨_, isPulses, pulse, found, member⟩, inside⟩ :=
        (((plain pulses).flatten_gathers coupling).drives_iff name).1 drives
      rw [Sequence.plains, List.mem_singleton] at isPulses
      subst isPulses
      rw [plain_duration_agrees pulsesTidy lasts nonneg found
        (fun undriven => undriven fields member name inside) evaluates]
  | append parts ih =>
      have partsTidy := (each_append_iff parts).1 tidied
      obtain ⟨spans, each⟩ := Outcome.related_of_each fun part member =>
        ih part member (partsTidy part member) fun pulses found => level pulses (by
          rw [Sequence.plains, mem_plains_all]
          exact ⟨part, member, found⟩)
      obtain ⟨span, sums⟩ := exists_sum spans
      refine @FlatSequence.exists_spans bindings span _ _ (fun coupling => ?_)
        (fun _ value evaluates => ?_) (undriven_flat_duration tidied)
      · rw [flatten_append_of]
        refine Flat.join_measured ?_ sums
        rw [List.forall₂_map_right_iff]
        refine each.flip.imp fun own part found => ?_
        exact ⟨found.1.measured coupling, found.1.tidied, found.1.worth, found.1.nonneg⟩
      · obtain ⟨values, valuesOk, total⟩ := (append_duration_ok_iff parts value).1 evaluates
        refine (sums value).2 ⟨values, ?_, total⟩
        exact Outcome.related_of_common each valuesOk fun part own number found numberOk =>
          found.2 number numberOk
  | slice inner interval ih =>
      obtain ⟨innerTidy, boundsTidy⟩ := (each_slice_iff inner interval).1 tidied
      obtain ⟨span, spans, agrees⟩ := ih innerTidy level
      obtain ⟨rest, cuts⟩ := exists_cut interval span
      refine @FlatSequence.exists_spans bindings rest _ _ (fun coupling => ?_)
        (fun _ value evaluates => ?_) (undriven_flat_duration tidied)
      · rw [flatten_slice_of]
        exact Flat.cut_measured (spans.measured coupling) boundsTidy cuts
      · obtain ⟨extent, start, stop, extentOk, startOk, stopOk, lengthOk⟩ :=
          (Scalar.eval_slice_ok_iff _ _ _ _).1 evaluates
        exact (cuts value).2 ⟨extent, start, stop, agrees extent extentOk, startOk, stopOk, lengthOk⟩
  | named name inner ih => exact ih tidied level

end Sequence

def Channel.Distinct (first second : Channel) : Prop :=
  first.same second = false ∧ second.same first = false

namespace Channel

theorem distinct_of_elsewhere {first second : Channel}
    (elsewhere : first.coupling ≠ second.coupling ∨ first.field ≠ second.field) :
    Distinct first second := by
  simp only [Distinct, Bool.eq_false_iff, ne_eq, same_iff, not_and]
  constructor
  · exact fun sameCoupling sameField => by simp_all
  · exact fun sameCoupling sameField => by simp_all

theorem distinct_of_target {first second : Channel} (tidied : second.target.EachWeight (·.tidy))
    (apart : first.target.same second.target = false) : Distinct first second := by
  simp only [Distinct, Bool.eq_false_iff, ne_eq, same_iff, not_and]
  refine ⟨fun _ _ => by simp [apart], fun _ _ equal => ?_⟩
  rw [Modulation.same_symm tidied equal] at apart
  cases apart

/-- In a list by coupling and field, only the channels of one field may be alike. -/
theorem pairwise_distinct {α β : Type} (channel : β → Channel)
    (items : Coupling → FieldName → α → List β) (table : PerCoupling (PerField α))
    (labelled : ∀ coupling name value, ∀ item ∈ items coupling name value,
      (channel item).coupling = coupling ∧ (channel item).field = name)
    (each : ∀ coupling fields name value, table.get? coupling = some fields →
      fields.get? name = some value → (items coupling name value).Pairwise fun first second =>
        Distinct (channel first) (channel second)) :
    (table.entries.flatMap fun entry => entry.2.entries.flatMap fun inner =>
      items entry.1 inner.1 inner.2).Pairwise fun first second =>
        Distinct (channel first) (channel second) := by
  refine List.pairwise_flatMap.2 ⟨fun entry member => ?_,
    (List.pairwise_map.1 table.entries_once).imp_of_mem ?_⟩
  · obtain ⟨coupling, fields⟩ := entry
    rw [PerCoupling.mem_entries_iff] at member
    refine List.pairwise_flatMap.2 ⟨fun inner innerMember => ?_,
      (List.pairwise_map.1 fields.entries_once).imp_of_mem ?_⟩
    · obtain ⟨name, value⟩ := inner
      rw [PerField.mem_entries_iff] at innerMember
      exact each coupling fields name value member innerMember
    · intro one other _ _ different first firstMember second secondMember
      apply distinct_of_elsewhere
      rw [(labelled _ _ _ first firstMember).2, (labelled _ _ _ second secondMember).2]
      exact Or.inr different
  · intro one other _ _ different first firstMember second secondMember
    obtain ⟨_, _, firstInside⟩ := List.mem_flatMap.1 firstMember
    obtain ⟨_, _, secondInside⟩ := List.mem_flatMap.1 secondMember
    apply distinct_of_elsewhere
    rw [(labelled _ _ _ first firstInside).1, (labelled _ _ _ second secondInside).1]
    exact Or.inl different

end Channel

namespace FlatSequence

variable {span : Option Decimal} {flat : FlatSequence}

theorem mem_drives_iff (flat : FlatSequence) (channel : Channel) (waveform : Waveform) :
    (channel, waveform) ∈ drives flat ↔
      ∃ field, (of flat channel.coupling).get? channel.field = some field ∧
        ⟨channel.target, waveform⟩ ∈ field.drives := by
  obtain ⟨coupling, name, target⟩ := channel
  simp only [drives, List.mem_flatMap, List.mem_map, Prod.exists, PerCoupling.mem_entries_iff,
    PerField.mem_entries_iff, Prod.mk.injEq, Channel.mk.injEq]
  constructor
  · rintro ⟨_, fields, fieldsFound, _, field, fieldFound, ⟨_, _⟩, member, ⟨rfl, rfl, rfl⟩, rfl⟩
    exact ⟨field, of_get fieldsFound ▸ fieldFound, member⟩
  · rintro ⟨field, fieldFound, member⟩
    unfold of at fieldFound
    cases fieldsFound : flat.get? coupling with
    | none => simp [fieldsFound] at fieldFound
    | some fields =>
        rw [fieldsFound] at fieldFound
        exact ⟨coupling, fields, fieldsFound, name, field, fieldFound, _, member, ⟨rfl, rfl, rfl⟩, rfl⟩

theorem drive_measured (spans : Spans bindings span flat) {channel : Channel} {waveform : Waveform}
    (member : (channel, waveform) ∈ drives flat) : waveform.Measured bindings span := by
  obtain ⟨field, found, driveMember⟩ := (mem_drives_iff _ _ _).1 member
  exact (spans.measured _).waveforms _ field found _ driveMember

theorem drive_target_tidy (spans : Spans bindings span flat) {entry : Channel × Waveform}
    (member : entry ∈ drives flat) : entry.1.target.EachWeight (·.tidy) := by
  obtain ⟨channel, waveform⟩ := entry
  obtain ⟨field, found, driveMember⟩ := (mem_drives_iff _ _ _).1 member
  exact (spans.measured _).targets _ field found _ driveMember

theorem drives_distinct (spans : Spans bindings span flat) :
    (drives flat).Pairwise fun first second => first.1.Distinct second.1 := by
  refine Channel.pairwise_distinct Prod.fst (fun coupling name (field : Field) =>
    field.drives.map fun drive => (⟨coupling, name, drive.target⟩, drive.waveform)) flat
    (fun coupling name field => ?_) fun coupling fields name field fieldsFound found => ?_
  · rw [List.forall_mem_map]
    exact fun drive _ => ⟨rfl, rfl⟩
  · have measured := of_get fieldsFound ▸ spans.measured coupling
    rw [List.pairwise_map]
    refine (measured.apart name field found).imp_of_mem fun _ secondMember apart => ?_
    exact Channel.distinct_of_target (measured.targets name field found _ secondMember) apart

end FlatSequence

end Analog
