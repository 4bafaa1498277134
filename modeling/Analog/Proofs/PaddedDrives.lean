import Analog.Proofs.PaddedSequences
import Analog.Proofs.WaveformValues
import Analog.Waveform.Builtin

/-!
# Padded drives

Padding brings every drive of a plain pulse to the length of the longest one. A drive that is
shorter keeps its values: they come first, or last if it is aligned to the right, and the rest
of the time has the value of its alignment, or zero. A drive of full length is not changed.
-/

set_option autoImplicit false

namespace Analog

/-- Of two signals one after the other the second takes over where the first ends. -/
theorem Signal.concatenate_pair_value {first second : Signal} {time : Decimal}
    (bounded : Bounded first) (firstPositive : 0 < first.duration)
    (secondPositive : 0 < second.duration) (nonneg : 0 ≤ time)
    (reached : time ≤ first.duration + second.duration) :
    (concatenate [first, second]).value time =
      if time < first.duration then first.value time
      else second.value (time - first.duration) := by
  have single : totalDuration [first] = first.duration := by simp
  have total : totalDuration [first, second] = first.duration + second.duration := by simp
  unfold concatenate
  rw [within_inside nonneg (by rwa [total])]
  split_ifs with early
  · have value := sequence_value_part [] [second] first (by simp) firstPositive
      (by simpa using nonneg) (Or.inl (by simpa using early))
    rwa [total_duration_nil, sub_zero] at value
  · rw [not_lt] at early
    have covered : time < totalDuration [first] + second.duration ∨
        time = totalDuration [first] + second.duration ∧
          ∀ other ∈ ([] : List Signal), other.duration = 0 := by
      rw [single]
      exact reached.lt_or_eq.imp_right fun ended => ⟨ended, by simp⟩
    have value := sequence_value_part [first] [] second (by simpa using bounded) secondPositive
      (by rwa [single]) covered
    rwa [single] at value

section

open Signal

variable [Natives] {bindings : ScalarBindings}

/-- The value of an alignment: the given one, or that of the waveform at one of its ends. -/
def FillValue.value (bindings : ScalarBindings) (inner : Waveform) (length : Decimal) :
    FillValue → Outcome Decimal
  | .explicit value => value.eval bindings
  | .boundary .left => inner.valueAt bindings 0
  | .boundary .right => inner.valueAt bindings length

namespace Waveform

/-- The value at a time of a waveform of the given length that is extended to a longer total. -/
def extendedValue (bindings : ScalarBindings) (length total : Decimal) (time : Decimal) :
    Waveform → Outcome Decimal
  | .aligned inner .left fill =>
    if time < length then inner.valueAt bindings time else fill.value bindings inner length
  | .aligned inner .right fill =>
    if time < total - length then fill.value bindings inner length
    else inner.valueAt bindings (time - (total - length))
  | other => if time < length then other.valueAt bindings time else .ok 0

/-- Of two waveforms one after the other the second takes over where the first ends. -/
theorem append_pair_value {first second : Waveform} {length other time : Decimal}
    (firstLasts : first.duration bindings = .ok length)
    (secondLasts : second.duration bindings = .ok other) (firstPositive : 0 < length)
    (secondPositive : 0 < other) (nonneg : 0 ≤ time) (reached : time ≤ length + other) :
    (append [first, second]).valueAt bindings time =
      if time < length then first.valueAt bindings time
      else second.valueAt bindings (time - length) := by
  rcases signal_of_duration firstLasts with ⟨firstMeaning, firstMeans, rfl⟩
  rcases signal_of_duration secondLasts with ⟨secondMeaning, secondMeans, rfl⟩
  have means : (append [first, second]).signal bindings =
      .ok (concatenate [firstMeaning, secondMeaning]) := by
    rw [append_signal_iff]
    exact ⟨[firstMeaning, secondMeaning], by simp [firstMeans, secondMeans], rfl⟩
  unfold valueAt
  rw [means, firstMeans, secondMeans, Outcome.ok_bind, Outcome.ok_bind, Outcome.ok_bind]
  exact concatenate_pair_value (signal_bounded bindings first firstMeaning firstMeans) firstPositive
    secondPositive nonneg reached

theorem constant_value {value : Scalar} {length time : Decimal} (nonneg : 0 ≤ time)
    (reached : time ≤ length) :
    (constant value (.literal length)).valueAt bindings time = value.eval bindings := by
  have lasts : leafDuration bindings (.literal length) = .ok length := by
    rw [leaf_duration_ok_iff]
    exact ⟨rfl, nonneg.trans reached⟩
  unfold valueAt signal
  rw [lasts, Outcome.ok_bind]
  change (within length fun _ => value.eval bindings).value time = value.eval bindings
  rw [within_inside nonneg reached]

theorem resolve_value {fill : FillValue} {inner : Waveform} {length : Decimal} {value : Scalar}
    (resolved : fill.resolve bindings inner length = .ok value) :
    value.eval bindings = fill.value bindings inner length := by
  cases fill with
  | explicit given =>
      rw [FillValue.resolve, Except.ok.injEq] at resolved
      rw [← resolved, FillValue.value]
  | boundary side =>
      cases side with
      | left
      | right =>
          rcases (Outcome.return_ok_iff _ _ _).1 resolved with ⟨number, numberOk, rfl⟩
          rw [FillValue.value, numberOk]
          rfl

theorem alignment_value (waveform : Waveform) (time : Decimal) :
    waveform.alignment?.1.valueAt bindings time = waveform.valueAt bindings time := by
  cases waveform <;> rfl

theorem extended_value_eq (length total time : Decimal) (waveform : Waveform) :
    waveform.extendedValue bindings length total time = match waveform.alignment? with
      | (inner, none) => if time < length then inner.valueAt bindings time else .ok 0
      | (inner, some (.left, fill)) =>
        if time < length then inner.valueAt bindings time else fill.value bindings inner length
      | (inner, some (.right, fill)) =>
        if time < total - length then fill.value bindings inner length
        else inner.valueAt bindings (time - (total - length)) := by
  cases waveform with
  | aligned inner alignment fill => cases alignment <;> rfl
  | _ => rfl

variable {waveform padded : Waveform} {length total : Decimal}

theorem pad_enough (lasts : waveform.duration bindings = .ok length) (enough : total ≤ length)
    (made : waveform.pad bindings total = .ok padded) : padded = waveform.alignment?.1 := by
  rw [← alignment_duration] at lasts
  unfold pad at made
  generalize waveform.alignment? = given at *
  rcases given with ⟨inner, advice⟩
  dsimp only at lasts made ⊢
  have full : (total - length).isPositive = false := by
    rwa [Decimal.is_positive_false_iff, sub_nonpos]
  rw [lasts, Outcome.ok_bind, full] at made
  exact (Except.ok.inj made).symm

/-- A shorter waveform has its own values and those of its alignment. -/
theorem pad_short (lasts : waveform.duration bindings = .ok length) (positive : 0 < length)
    (short : length < total) (made : waveform.pad bindings total = .ok padded) {time : Decimal}
    (nonneg : 0 ≤ time) (reached : time ≤ total) :
    padded.valueAt bindings time = waveform.extendedValue bindings length total time := by
  rw [extended_value_eq]
  rw [← alignment_duration] at lasts
  unfold pad at made
  generalize waveform.alignment? = given at *
  rcases given with ⟨inner, advice⟩
  dsimp only at lasts made ⊢
  have remains : 0 < total - length := sub_pos.2 short
  have restLasts : ∀ value : Scalar,
      (constant value (.literal (total - length))).duration bindings = .ok (total - length) :=
    fun value => constant_lasts remains.le
  rw [lasts, Outcome.ok_bind, if_neg (by simpa using remains)] at made
  -- With and without advice two waveforms follow each other; each covers one side of the joint.
  rcases advice with _ | ⟨side, fill⟩
  · rw [← Except.ok.inj made, zero, append_pair_value lasts (restLasts _) positive remains nonneg
      (by linarith)]
    dsimp only
    split_ifs with early
    · rfl
    · rw [not_lt] at early
      exact constant_value (by linarith) (by linarith)
  · rcases (Outcome.bind_ok_iff _ _ _).1 made with ⟨value, resolved, joined⟩
    cases side with
    | left =>
        rw [← Except.ok.inj joined, append_pair_value lasts (restLasts _) positive remains nonneg
          (by linarith)]
        dsimp only
        split_ifs with early
        · rfl
        · rw [not_lt] at early
          rw [constant_value (by linarith) (by linarith), resolve_value resolved]
    | right =>
        rw [← Except.ok.inj joined, append_pair_value (restLasts _) lasts remains positive nonneg
          (by linarith)]
        dsimp only
        split_ifs with early
        · rw [constant_value nonneg early.le, resolve_value resolved]
        · rfl

end Waveform

namespace Padding

/-- The drives of a padded field come first, each under its own modulation. What is added for
missing modulations does not touch them. -/
theorem field_finds {length : Decimal} {targets : List Modulation} {drives : List Drive}
    {result : Field} (apart : Field.Apart drives)
    (padded : field bindings length targets drives = .ok result) {drive : Drive}
    (member : drive ∈ drives) :
    ∃ longer, drive.waveform.pad bindings length = .ok longer ∧
      result.lookup? drive.target = some longer := by
  rcases (Outcome.return_ok_iff _ _ _).1 padded with ⟨extended, worked, rfl⟩
  have related : List.Forall₂ (fun given made => ∃ longer, given.waveform.pad bindings length =
      .ok longer ∧ made = ⟨given.target, longer⟩) drives extended := by
    apply ((Outcome.mapM_ok_iff _ _ _).1 worked).imp
    intro given made madeOk
    rcases (Outcome.return_ok_iff _ _ _).1 madeOk with ⟨longer, longerOk, rfl⟩
    exact ⟨longer, longerOk, rfl⟩
  have sameTargets : extended.map (·.target) = drives.map (·.target) := by
    apply Outcome.map_eq_of_related related
    rintro given made ⟨longer, _, rfl⟩
    rfl
  have mapped : (drives.map (·.target)).Pairwise fun first second => first.same second = false :=
    List.pairwise_map.2 apart
  rw [← sameTargets] at mapped
  have extendedApart : Field.Apart extended := List.pairwise_map.1 mapped
  -- Only modulations that no drive has are missing, so their zeros stay behind the drives.
  have different : ∀ other ∈ zeroDrives length (targets.filter fun target =>
      !drives.any (·.target.same target)), ∀ made ∈ extended,
      made.target.same other.target = false := by
    intro other otherMember made madeMember
    rcases List.mem_map.1 otherMember with ⟨missing, missingMember, rfl⟩
    rcases Outcome.source_of_mem related madeMember with ⟨given, givenMember, _, _, rfl⟩
    have notDriven := (List.mem_filter.1 missingMember).2
    rw [Bool.not_eq_true', List.any_eq_false] at notDriven
    exact Bool.eq_false_iff.2 (notDriven given givenMember)
  rcases Field.of_drives_kept _ extendedApart different with ⟨rest, kept⟩
  rcases Outcome.target_of_mem related member with ⟨_, madeMember, longer, longerOk, rfl⟩
  refine ⟨longer, longerOk, ?_⟩
  rw [Field.lookup?, kept, List.find?_append, Field.find_of_apart extendedApart madeMember]
  rfl

omit [Natives] in
theorem longest_drive_reached {drives : List Drive} {length : Decimal}
    (longest : longestDrive bindings drives = .ok length) (positive : 0 < length) :
    ∃ drive ∈ drives, drive.waveform.duration bindings = .ok length := by
  induction drives generalizing length with
  | nil =>
      rw [longestDrive, Except.ok.injEq] at longest
      exact absurd positive (by rw [← longest]; exact lt_irrefl _)
  | cons head rest ih =>
      rcases (Outcome.bind_ok_iff _ _ _).1 longest with ⟨first, firstOk, remaining⟩
      rcases (Outcome.return_ok_iff _ _ _).1 remaining with ⟨others, othersOk, rfl⟩
      rcases le_total first others with less | more
      · rw [max_eq_right less] at positive ⊢
        rcases ih othersOk positive with ⟨drive, member, lasts⟩
        exact ⟨drive, by simp [member], lasts⟩
      · rw [max_eq_left more]
        exact ⟨head, by simp, firstOk⟩

end Padding

def PerField.DriveLasts (bindings : ScalarBindings) (fields : PerField Field) (length : Decimal) :
    Prop :=
  ∃ name field, fields.get? name = some field ∧
    ∃ drive ∈ field.drives, drive.waveform.duration bindings = .ok length

namespace Padding

omit [Natives] in
theorem mem_all_drives {fields : PerField Field} {drive : Drive} :
    drive ∈ fields.entries.flatMap (·.2.drives) ↔
      ∃ name field, fields.get? name = some field ∧ drive ∈ field.drives := by
  simp only [List.mem_flatMap, Prod.exists, PerField.mem_entries_iff]

omit [Natives] in
/-- If one drive of a pulse lasts for a while, the length of the pulse is that of its longest
drive. -/
theorem longest_drive_greatest {fields : PerField Field} {length current : Decimal}
    (longest : longestDrive bindings (fields.entries.flatMap (·.2.drives)) = .ok length)
    (driven : fields.DriveLasts bindings current) (positive : 0 < current) :
    IsGreatest {extent | fields.DriveLasts bindings extent} length := by
  have bound : ∀ extent, fields.DriveLasts bindings extent → extent ≤ length := by
    rintro extent ⟨name, field, found, drive, member, lasts⟩
    rcases (longest_drive_ok longest).2 drive (mem_all_drives.2 ⟨name, field, found, member⟩) with
      ⟨other, otherOk, short⟩
    rw [lasts, Except.ok.injEq] at otherOk
    rwa [otherOk]
  refine ⟨?_, bound⟩
  rcases longest_drive_reached longest (positive.trans_le (bound current driven)) with
    ⟨drive, member, lasts⟩
  rcases mem_all_drives.1 member with ⟨name, field, found, inside⟩
  exact ⟨name, field, found, drive, inside, lasts⟩

/-- Every drive of a plain pulse is still there after padding, as long as the longest one. Up to
its own end, or from its start if that has moved, it has its own values, and otherwise the value
of its alignment or zero. A longest drive keeps its values at all times. The modulations of a
field that is made of drives are always apart (`Field.of_drives_apart`). -/
theorem padded_drive_values {required : PerField (List Modulation)} {fields result : PerField Field}
    (apart : fields.Apart) (padded : plainPulse bindings required fields = .ok result)
    (name : FieldName) (field : Field) (found : fields.get? name = some field) (drive : Drive)
    (member : drive ∈ field.drives) (current : Decimal)
    (lasts : drive.waveform.duration bindings = .ok current) (positive : 0 < current) :
    ∃ length made longer evaluator, IsGreatest {extent | fields.DriveLasts bindings extent} length ∧
      result.get? name = some made ∧ made.lookup? drive.target = some longer ∧
      Evaluator.of bindings longer = .ok evaluator ∧ evaluator.duration = length ∧
      (current < length → ∀ time, 0 ≤ time → time ≤ length →
        evaluator.valueAt time = drive.waveform.extendedValue bindings current length time) ∧
      (current = length →
        ∀ time, evaluator.valueAt time = drive.waveform.valueAt bindings time) := by
  rcases plain_pulse_fields padded with ⟨length, longest, fieldsMade, present⟩
  rcases present name (Or.inl (by rw [found]; rfl)) with ⟨made, madeFound⟩
  have fieldMade := fieldsMade name made madeFound
  have sameDrives : fields.drivesOf name = field.drives := by
    rw [PerField.drivesOf, found]
    rfl
  rw [sameDrives] at fieldMade
  rcases field_finds (apart name field found) fieldMade member with ⟨longer, longerMade, lookup⟩
  have driven : fields.DriveLasts bindings current := ⟨name, field, found, drive, member, lasts⟩
  have greatest := longest_drive_greatest longest driven positive
  have anyScalars : drive.waveform.Each fun _ => True := fun _ _ _ _ => trivial
  have longerLasts : longer.duration bindings = .ok length :=
    (Waveform.pad_ok (fun _ => trivial) anyScalars longerMade).2 current lasts (greatest.2 driven)
  rcases Waveform.signal_of_duration longerLasts with ⟨meaning, means, sameLength⟩
  rcases Evaluator.of_signal means with ⟨evaluator, evaluatorMade, evaluatorLasts, _⟩
  refine ⟨length, made, longer, evaluator, greatest, madeFound, lookup, evaluatorMade,
    evaluatorLasts.trans sameLength, ?_, ?_⟩
  · intro short time nonneg reached
    rw [Evaluator.value_at_eq evaluatorMade]
    exact Waveform.pad_short lasts positive short longerMade nonneg reached
  · intro full time
    rw [Evaluator.value_at_eq evaluatorMade, Waveform.pad_enough lasts full.ge longerMade,
      Waveform.alignment_value]

end Padding

end

namespace Padding

/-- A ramp of length two that is aligned to the right, beside a constant of length three. -/
def lateRampDrives : List Drive :=
  [⟨.uniform, .aligned (.ramp (.literal 1) (.literal 3) (.literal 2)) .right (.boundary .left)⟩,
    ⟨.vector "mask", .constant (.literal 5) (.literal 3)⟩]

def lateRamp : PerField Field := ⟨some ⟨lateRampDrives⟩, none, none⟩

theorem late_ramp_field {name : FieldName} {field : Field}
    (found : lateRamp.get? name = some field) :
    field = ⟨lateRampDrives⟩ := by
  cases name with
  | detuning => exact (Option.some.inj found).symm
  | rabiAmplitude => cases found
  | rabiPhase => cases found

theorem late_ramp_longest {length : Decimal}
    (greatest : IsGreatest {extent | lateRamp.DriveLasts .empty extent} length) : length = 3 := by
  have upper : (3 : Decimal) ≤ length :=
    greatest.2 ⟨.detuning, _, rfl, _, List.mem_cons_of_mem _ List.mem_cons_self, rfl⟩
  rcases greatest.1 with ⟨name, field, found, drive, member, lasts⟩
  rw [late_ramp_field found] at member
  rcases List.mem_pair.1 member with rfl | rfl
  · have two : (2 : Decimal) = length := Except.ok.inj lasts
    exact absurd upper (by rw [← two]; decide)
  · exact (Except.ok.inj lasts).symm

/-- The ramp waits for a unit of time at its first value. -/
theorem padded_drive_values_late_ramp :
    ∃ result made longer evaluator,
      plainPulse .empty ⟨some [.uniform], some [.uniform], none⟩ lateRamp = .ok result ∧
      result.get? .detuning = some made ∧ made.lookup? .uniform = some longer ∧
      Evaluator.of .empty longer = .ok evaluator ∧ evaluator.duration = 3 ∧
      evaluator.valueAt (.ofScaled 5 1) = .ok 1 ∧ evaluator.valueAt 2 = .ok 2 := by
  have apart : lateRamp.Apart := by
    intro name field found
    rw [late_ramp_field found]
    exact List.pairwise_pair.2 (by decide)
  have padded : ∃ result,
      plainPulse .empty ⟨some [.uniform], some [.uniform], none⟩ lateRamp = .ok result :=
    ⟨_, rfl⟩
  rcases padded with ⟨result, padded⟩
  rcases padded_drive_values apart padded .detuning _ rfl _ List.mem_cons_self 2 rfl
    (by decide) with
    ⟨length, made, longer, evaluator, greatest, madeFound, found, evaluatorMade, lasts, values, _⟩
  have three := late_ramp_longest greatest
  subst three
  refine ⟨result, made, longer, evaluator, padded, madeFound, found, evaluatorMade, lasts, ?_, ?_⟩
  · rw [values (by decide) (.ofScaled 5 1) (by decide) (by decide)]
    rfl
  · rw [values (by decide) 2 (by decide) (by decide)]
    rfl

end Padding

end Analog
