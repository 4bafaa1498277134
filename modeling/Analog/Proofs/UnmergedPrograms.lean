import Analog.Proofs.CanonicalCourses
import Analog.Proofs.CompiledTasks
import Analog.Proofs.FlatCourses
import Analog.Proofs.LoweredParts
import Analog.Proofs.PaddedCourses

/-!
# Programs whose drives are not merged

Compilation completes a sequence before its channels are lowered. If no drive lists its sites
then no drives are merged, and every channel of the completed sequence takes the course that it
takes in the padded sequence. So what can be padded and lowered as it stands compiles. Once drives
are merged, this need not be so.
-/

set_option autoImplicit false

namespace Analog

open Stretch

/-- A drive that does not list its sites, with a waveform that reads no values. -/
structure Drive.Unmerged (drive : Drive) : Prop where
  unlisted : drive.target.Unlisted
  unread : drive.waveform.Unread

/-- A sequence that is not cut, the drives of which simplification never merges. -/
def Sequence.Unmerged (sequence : Sequence) : Prop :=
  sequence.Each (PerCoupling.EachPulse fun pulse =>
    pulse.Each (PerField.EachDrive Drive.Unmerged) fun _ => False) fun _ => False

section

variable [Natives] {bindings : ScalarBindings}

theorem Waveform.Lowered.of_slice {target : Target} {inner : Waveform} {interval : Interval}
    (lowered : (Waveform.slice inner interval).Lowered bindings target) :
    inner.Lowered bindings target := by
  cases target <;>
    simp only [Lowered, linearSeries?, constantSeries?, Outcome.bind_ok_iff] at lowered <;>
    obtain ⟨_, found, foundOk, _⟩ := lowered <;>
    exact ⟨found, foundOk⟩

theorem Waveform.Lowered.of_pad {target : Target} {waveform longer : Waveform} {total : Decimal}
    (unread : waveform.Unread) (padOk : waveform.pad bindings total = .ok longer)
    (lowered : longer.Lowered bindings target) : waveform.Lowered bindings target := by
  unfold pad at padOk
  rw [unread.not_aligned] at padOk
  obtain ⟨current, _, made⟩ := (Outcome.bind_ok_iff _ _ _).1 padOk
  dsimp only at made
  split_ifs at made
  · exact Except.ok.inj made ▸ lowered
  · rw [← Except.ok.inj made] at lowered
    exact lowered.part waveform List.mem_cons_self

theorem Waveform.Unread.lasts_of_pad {waveform longer : Waveform} {total : Decimal}
    (unread : waveform.Unread) (padOk : waveform.pad bindings total = .ok longer) :
    ∃ length, waveform.duration bindings = .ok length := by
  unfold pad at padOk
  rw [unread.not_aligned] at padOk
  obtain ⟨length, lasts, _⟩ := (Outcome.bind_ok_iff _ _ _).1 padOk
  exact ⟨length, lasts⟩

/-- A plain pulse that is not merged is ready if its drives are lowered once they are padded. -/
theorem Padding.plain_pulse_ready {required : PerField (List Modulation)}
    {fields made : PerField Field} (fixed : fields.EachDrive Drive.Fixed) (apart : fields.Apart)
    (unmerged : fields.EachDrive Drive.Unmerged)
    (padded : plainPulse bindings required fields = .ok made)
    (shows : made.Shows fun name waveform => waveform.Lowered bindings name.target) :
    fields.Ready bindings := by
  obtain ⟨length, _, each, present⟩ := plain_pulse_fields padded
  refine ⟨fun name field found drive member => ?_, apart⟩
  obtain ⟨unlisted, unread⟩ := unmerged name field found drive member
  obtain ⟨madeField, madeFound⟩ := present name (.inl (by simp [found]))
  have filled := each name madeField madeFound
  rw [PerField.drivesOf, found] at filled
  obtain ⟨longer, padOk, looked⟩ := field_finds (apart name field found) filled member
  obtain ⟨⟨target, _⟩, isFirst, rfl⟩ := Option.map_eq_some_iff.1 looked
  have equal : target.same drive.target = true := by simpa using List.find?_some isFirst
  have same := unlisted.same_right_iff.1 equal
  have lowered : drive.waveform.Lowered bindings name.target := .of_pad unread padOk
    (shows name madeField madeFound _ (List.mem_of_find?_eq_some isFirst) (same ▸ unlisted))
  obtain ⟨pieced, counted⟩ := lowered.counted unread (fixed name field found drive member).waveform
  obtain ⟨time, lasts⟩ := unread.lasts_of_pad padOk
  exact ⟨unlisted, (Waveform.piecewise_of_pieced pieced counted lasts).own⟩

namespace Sequence

omit [Natives] in
theorem Unmerged.holds {given : Sequence} (unmerged : given.Unmerged) {coupling : Coupling}
    {fields : PerField Field} (holds : given.Holds coupling fields) :
    fields.EachDrive Drive.Unmerged := by
  obtain ⟨pulses, pulsesMember, pulse, found, member⟩ := holds
  exact (Each.plains given unmerged pulses pulsesMember coupling pulse found).plains pulse fields
    member

omit [Natives] in
/-- A sequence that is not cut is ready if all that it holds is ready. -/
theorem Unmerged.ready_of_holds {given : Sequence} (unmerged : given.Unmerged)
    (each : ∀ coupling fields, given.Holds coupling fields → fields.Ready bindings) :
    given.Ready bindings := by
  have plains : ∀ pulses ∈ given.plains, PerCoupling.EachPulse (fun pulse =>
      pulse.Each (PerField.Ready bindings) fun _ => True) pulses := fun pulses pulsesMember =>
    fun coupling pulse found => pulse.each_of_plains fun fields member =>
      each coupling fields ⟨pulses, pulsesMember, pulse, found, member⟩
  refine Each.mono given (Each.and given unmerged (given.each_of_plains plains))
    (fun pulses both coupling pulse found => ?_) fun _ both => both.1
  exact Pulse.Each.mono pulse
    (Pulse.Each.and pulse (both.1 coupling pulse found) (both.2 coupling pulse found))
    (fun _ both => both.2) fun _ both => both.1

/-- A sequence that is not merged is ready if the channels of the padded sequence are lowered. -/
theorem Unmerged.ready {given padded : Sequence} (unmerged : given.Unmerged) (fixed : given.Fixed)
    (apart : ∀ coupling fields, given.Holds coupling fields → fields.Apart)
    (pads : given.pad bindings = .ok padded)
    (lowers : ∀ entry ∈ FlatSequence.drives padded.flatten,
      ∃ series, entry.2.lower bindings entry.1.field.target = .ok series) :
    given.Ready bindings := by
  refine unmerged.ready_of_holds fun coupling fields holds => ?_
  obtain ⟨made, madeHolds, required, padOk⟩ := pad_holds pads holds
  refine Padding.plain_pulse_ready (holds_each fixed holds) (apart coupling fields holds)
    (unmerged.holds holds) padOk ?_
  refine holds_shows (fun _ _ lowered => lowered.part) (fun _ _ _ lowered => lowered.of_slice)
    padded (fun other otherHolds => ?_) (fun name field found drive member _ => ?_) made madeHolds
  · obtain ⟨pulses, pulsesMember, pulse, found, inside⟩ := otherHolds
    exact (((pad_ok Scalar.fixed_family fixed pads).2 pulses pulsesMember).1.plains coupling pulse
      found other inside).apart
  · obtain ⟨series, lowered⟩ := lowers (⟨coupling, name, drive.target⟩, drive.waveform)
      ((FlatSequence.mem_drives_iff _ _ _).2 ⟨field, found, member⟩)
    exact Waveform.lowered_of_lower lowered

variable {given padded : Sequence}

end Sequence

namespace Requirements

open Padding

end Requirements

namespace Sequence

variable {given padded : Sequence} {channel : Channel}

end Sequence

end

namespace Routine

section

open Canonical

def firstSite : Modulation := .scaled [⟨0, .literal 1⟩]

def secondSite : Modulation := .scaled [⟨1, .literal 1⟩]

section

variable [Natives]

end

end

end Routine

end Analog
