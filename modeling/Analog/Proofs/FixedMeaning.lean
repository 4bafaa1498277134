import Analog.Proofs.PaddedSequences

/-!
# Meaning of fixed programs

What has no variables means the same under all bindings. A fixed scalar has one value or one
failure, and that is never an unbound variable. A fixed waveform has one signal. A fixed
sequence is padded in one way, because the durations that padding measures on its way are
those of fixed pulses again.
-/

set_option autoImplicit false

namespace Analog

namespace Outcome

variable {α β : Type}

def Without (kind : FailureKind) (outcome : Outcome α) : Prop :=
  ∀ failure, outcome = .error failure → failure.kind ≠ kind

namespace Without

variable {kind : FailureKind}

theorem ok (value : α) : Without kind (.ok value) := by
  intro failure failed
  cases failed

theorem error {failure : Failure} (other : failure.kind ≠ kind) :
    Without kind (.error failure : Outcome α) := by
  rintro _ ⟨⟩
  exact other

theorem bind {outcome : Outcome α} {next : α → Outcome β} (first : Without kind outcome)
    (rest : ∀ value, Without kind (next value)) : Without kind (outcome >>= next) := by
  cases outcome with
  | ok value => exact rest value
  | error failure => exact error (first failure rfl)

theorem blame {result : Except Defect α} (subject : Unit → String)
    (other : FailureKind.malformed ≠ kind) : Without kind (Outcome.blame subject result) := by
  cases result with
  | ok value => exact ok value
  | error defect => exact error other

end Without

theorem bind_congr {outcome : Outcome α} {next other : α → Outcome β}
    (same : ∀ value, outcome = .ok value → next value = other value) :
    (outcome >>= next) = (outcome >>= other) := by
  cases outcome with
  | ok value => exact same value rfl
  | error failure => rfl

theorem mapM_congr {work other : α → Outcome β} {items : List α}
    (same : ∀ item ∈ items, work item = other item) : items.mapM work = items.mapM other := by
  induction items with
  | nil => rfl
  | cons item rest ih =>
      rw [List.mapM_cons, List.mapM_cons, same item (by simp),
        ih fun later member => same later (by simp [member])]

end Outcome

open Outcome

namespace Scalar

variable (first second : ScalarBindings)

theorem eval_all_congr {operands : List Scalar}
    (each : ∀ operand ∈ operands, operand.eval first = operand.eval second) :
    evalAll first operands = evalAll second operands := by
  induction operands with
  | nil => rfl
  | cons operand rest ih =>
      rw [evalAll, evalAll, each operand (by simp),
        ih fun other member => each other (by simp [member])]

theorem eval_bound_congr {bound : Option Scalar}
    (each : ∀ given ∈ bound, given.eval first = given.eval second) :
    evalBound first bound = evalBound second bound := by
  cases bound with
  | none => rfl
  | some given => rw [evalBound, evalBound, each given rfl]

/-- A fixed scalar has one value, or one failure, under all bindings. -/
theorem Fixed.eval_eq (scalar : Scalar) (fixed : scalar.Fixed) :
    scalar.eval first = scalar.eval second := by
  induction scalar using Scalar.parts_induction with
  | literal value => rfl
  | named name => exact absurd fixed (not_fixed_variable name)
  | assigned name value => rfl
  | negative operand ih => rw [eval, eval, ih ((fixed_negative_iff operand).1 fixed)]
  | add left right leftIh rightIh =>
      obtain ⟨leftFixed, rightFixed⟩ := (fixed_add_iff left right).1 fixed
      rw [eval, eval, leftIh leftFixed, rightIh rightFixed]
  | mul left right leftIh rightIh =>
      obtain ⟨leftFixed, rightFixed⟩ := (fixed_mul_iff left right).1 fixed
      rw [eval, eval, leftIh leftFixed, rightIh rightFixed]
  | div left right leftIh rightIh =>
      obtain ⟨leftFixed, rightFixed⟩ := (fixed_div_iff left right).1 fixed
      rw [eval, eval, leftIh leftFixed, rightIh rightFixed]
  | min operands ih =>
      have each := ((fixed_min_iff operands).1 fixed).2
      rw [eval, eval, eval_all_congr first second fun operand member =>
        ih operand member (each operand member)]
  | max operands ih =>
      have each := ((fixed_max_iff operands).1 fixed).2
      rw [eval, eval, eval_all_congr first second fun operand member =>
        ih operand member (each operand member)]
  | slice extent start stop extentIh startIh stopIh =>
      obtain ⟨extentFixed, startFixed, stopFixed⟩ := (fixed_slice_iff extent start stop).1 fixed
      rw [eval, eval, extentIh extentFixed,
        eval_bound_congr first second fun bound member =>
          startIh bound member (startFixed bound member),
        eval_bound_congr first second fun bound member =>
          stopIh bound member (stopFixed bound member)]

variable {bindings : ScalarBindings} {kind : FailureKind}

theorem eval_all_without {operands : List Scalar}
    (each : ∀ operand ∈ operands, Without kind (operand.eval bindings)) :
    Without kind (evalAll bindings operands) := by
  induction operands with
  | nil => exact .ok []
  | cons operand rest ih =>
      exact (each operand (by simp)).bind fun _ =>
        (ih fun other member => each other (by simp [member])).bind fun _ => .ok _

theorem eval_bound_without {bound : Option Scalar}
    (each : ∀ given ∈ bound, Without kind (given.eval bindings)) :
    Without kind (evalBound bindings bound) := by
  cases bound with
  | none => exact .ok none
  | some given => exact (each given rfl).bind fun _ => .ok _

theorem Fixed.eval_bound (scalar : Scalar) (fixed : scalar.Fixed) :
    Without .unbound (scalar.eval bindings) := by
  induction scalar using Scalar.parts_induction with
  | literal value => exact .ok value
  | named name => exact absurd fixed (not_fixed_variable name)
  | assigned name value => exact .ok value
  | negative operand ih => exact (ih ((fixed_negative_iff operand).1 fixed)).bind fun _ => .ok _
  | add left right leftIh rightIh =>
      obtain ⟨leftFixed, rightFixed⟩ := (fixed_add_iff left right).1 fixed
      exact (leftIh leftFixed).bind fun _ => (rightIh rightFixed).bind fun _ => .ok _
  | mul left right leftIh rightIh =>
      obtain ⟨leftFixed, rightFixed⟩ := (fixed_mul_iff left right).1 fixed
      exact (leftIh leftFixed).bind fun _ => (rightIh rightFixed).bind fun _ => .ok _
  | div left right leftIh rightIh =>
      obtain ⟨leftFixed, rightFixed⟩ := (fixed_div_iff left right).1 fixed
      rw [eval]
      refine (leftIh leftFixed).bind fun _ => (rightIh rightFixed).bind fun _ => ?_
      split
      · exact .ok _
      · exact .error (by simp [Failure.kind])
  | min operands ih =>
      have each := ((fixed_min_iff operands).1 fixed).2
      rw [eval]
      refine (eval_all_without fun operand member =>
        ih operand member (each operand member)).bind fun _ => ?_
      split
      · exact .error (by simp [Failure.kind])
      · exact .ok _
  | max operands ih =>
      have each := ((fixed_max_iff operands).1 fixed).2
      rw [eval]
      refine (eval_all_without fun operand member =>
        ih operand member (each operand member)).bind fun _ => ?_
      split
      · exact .error (by simp [Failure.kind])
      · exact .ok _
  | slice extent start stop extentIh startIh stopIh =>
      obtain ⟨extentFixed, startFixed, stopFixed⟩ := (fixed_slice_iff extent start stop).1 fixed
      refine (extentIh extentFixed).bind fun _ =>
        (eval_bound_without fun bound member => startIh bound member (startFixed bound member)).bind
          fun _ => (eval_bound_without fun bound member =>
            stopIh bound member (stopFixed bound member)).bind fun _ => ?_
      exact .blame _ (by simp)

end Scalar

namespace Waveform

variable (first second : ScalarBindings)

theorem leaf_duration_eq {time : Scalar} (fixed : time.Fixed) :
    leafDuration first time = leafDuration second time := by
  rw [leafDuration, leafDuration, fixed.eval_eq first second]

theorem slice_bounds_eq (subject : Unit → String) {interval : Interval} (fixed : interval.Fixed)
    (extent : Decimal) :
    sliceBounds first subject interval extent = sliceBounds second subject interval extent := by
  obtain ⟨startFixed, stopFixed⟩ := (Interval.each_iff interval).1 fixed
  rw [sliceBounds, sliceBounds,
    Scalar.eval_bound_congr first second fun bound member =>
      (startFixed bound member).eval_eq first second,
    Scalar.eval_bound_congr first second fun bound member =>
      (stopFixed bound member).eval_eq first second]

variable [Natives]

theorem signals_congr {parts : List Waveform}
    (each : ∀ part ∈ parts, part.signal first = part.signal second) :
    signals first parts = signals second parts := by
  induction parts with
  | nil => rfl
  | cons part rest ih =>
      rw [signals, signals, each part (by simp),
        ih fun other member => each other (by simp [member])]

theorem Fixed.signal_eq (waveform : Waveform) (fixed : waveform.Fixed) :
    waveform.signal first = waveform.signal second := by
  induction waveform using children_induction with
  | step waveform ih =>
      obtain ⟨own, inside⟩ := (fixed_iff waveform).1 fixed
      have values : ∀ scalar ∈ waveform.scalars, scalar.eval first = scalar.eval second :=
        fun scalar member => (own scalar member).eval_eq first second
      have meanings : ∀ child ∈ waveform.children, child.signal first = child.signal second :=
        fun child member => ih child member (inside child member)
      clear ih inside fixed
      cases waveform with
      | constant value duration =>
          rw [signal, signal, leaf_duration_eq first second (own duration (by simp [scalars])),
            values value (by simp [scalars])]
      | ramp start stop duration =>
          rw [signal, signal, leaf_duration_eq first second (own duration (by simp [scalars])),
            values start (by simp [scalars]), values stop (by simp [scalars])]
      | poly coefficients duration =>
          rw [signal, signal, leaf_duration_eq first second (own duration (by simp [scalars])),
            Scalar.eval_all_congr first second fun coefficient member =>
              values coefficient (by simp [scalars, member])]
      | native name function duration parameters =>
          rw [signal, signal, leaf_duration_eq first second (own duration (by simp [scalars])),
            Scalar.eval_all_congr first second fun parameter member =>
              values parameter (by simp [scalars, member])]
      | negative inner => rw [signal, signal, meanings inner (by simp [children])]
      | add left right =>
          rw [signal, signal, meanings left (by simp [children]), meanings right (by simp [children])]
      | scale factor inner =>
          rw [signal, signal, meanings inner (by simp [children]), values factor (by simp [scalars])]
      | slice inner interval =>
          rw [signal, signal, meanings inner (by simp [children])]
          refine bind_congr fun meaning _ => ?_
          rw [slice_bounds_eq first second _ own]
      | append parts =>
          change ∀ part ∈ parts, part.signal first = part.signal second at meanings
          rw [signal, signal, signals_congr first second meanings]
      | record name inner side => exact meanings inner (by simp [children])
      | sample inner step interpolation =>
          rw [signal, signal, meanings inner (by simp [children]), values step (by simp [scalars])]
      | smooth inner radius kernel =>
          rw [signal, signal, meanings inner (by simp [children]), values radius (by simp [scalars])]
      | aligned inner alignment fill => exact meanings inner (by simp [children])

theorem Fixed.duration_eq {waveform : Waveform} (fixed : waveform.Fixed) :
    waveform.duration first = waveform.duration second := by
  rw [duration_eq_map_signal, duration_eq_map_signal, fixed.signal_eq first second]

theorem Fixed.value_at_eq {waveform : Waveform} (fixed : waveform.Fixed) (time : Decimal) :
    waveform.valueAt first time = waveform.valueAt second time := by
  rw [valueAt, valueAt, fixed.signal_eq first second]

theorem fill_resolve_eq {inner : Waveform} (fixed : inner.Fixed) (length : Decimal)
    (fill : FillValue) :
    fill.resolve first inner length = fill.resolve second inner length := by
  cases fill with
  | explicit value => rfl
  | boundary side =>
      cases side <;>
      · rw [FillValue.resolve, FillValue.resolve, fixed.value_at_eq first second]

theorem Fixed.pad_eq {waveform : Waveform} (fixed : waveform.Fixed) (target : Decimal) :
    waveform.pad first target = waveform.pad second target := by
  have innerFixed : waveform.alignment?.1.Fixed := (alignment_each fixed).1
  unfold pad
  generalize waveform.alignment? = given at *
  obtain ⟨inner, advice⟩ := given
  dsimp only at innerFixed ⊢
  rw [innerFixed.duration_eq first second]
  refine bind_congr fun length _ => ?_
  split_ifs
  · rfl
  · cases advice with
    | none => rfl
    | some given =>
        obtain ⟨side, fill⟩ := given
        dsimp only
        rw [fill_resolve_eq first second innerFixed]

end Waveform

namespace Padding

variable (first second : ScalarBindings) [Natives]

theorem longest_drive_eq {drives : List Drive} (fixed : ∀ drive ∈ drives, drive.waveform.Fixed) :
    longestDrive first drives = longestDrive second drives := by
  induction drives with
  | nil => rfl
  | cons drive rest ih =>
      rw [longestDrive, longestDrive, (fixed drive (by simp)).duration_eq first second,
        ih fun other member => fixed other (by simp [member])]

theorem field_eq {drives : List Drive} (fixed : ∀ drive ∈ drives, drive.waveform.Fixed)
    (length : Decimal) (targets : List Modulation) :
    field first length targets drives = field second length targets drives := by
  unfold field
  rw [mapM_congr fun drive member => by rw [(fixed drive member).pad_eq first second length]]

theorem plain_pulse_eq {fields : PerField Field} (fixed : fields.EachDrive Drive.Fixed)
    (required : PerField (List Modulation)) :
    plainPulse first required fields = plainPulse second required fields := by
  have all : ∀ drive ∈ fields.entries.flatMap (·.2.drives), drive.waveform.Fixed := by
    intro drive member
    obtain ⟨⟨name, given⟩, found, inside⟩ := List.mem_flatMap.1 member
    exact (fixed name given ((fields.mem_entries_iff _ _).1 found) drive inside).waveform
  have each : ∀ name, ∀ drive ∈ ((fields.get? name).map (·.drives)).getD [],
      drive.waveform.Fixed := by
    intro name drive member
    cases found : fields.get? name with
    | none => simp [found] at member
    | some given =>
        rw [found] at member
        exact (fixed name given found drive member).waveform
  unfold plainPulse
  rw [longest_drive_eq first second all]
  refine bind_congr fun length _ => ?_
  dsimp only
  rw [mapM_congr fun name _ => by rw [field_eq first second (each name)]]

theorem pulses_congr {required : PerField (List Modulation)} {parts : List Pulse}
    (each : ∀ part ∈ parts, pulse first required part = pulse second required part) :
    pulses first required parts = pulses second required parts := by
  induction parts with
  | nil => rfl
  | cons part rest ih =>
      rw [pulses, pulses, each part (by simp), ih fun other member => each other (by simp [member])]

theorem pulse_eq (required : PerField (List Modulation)) (given : Pulse) (fixed : given.Fixed) :
    pulse first required given = pulse second required given := by
  unfold Pulse.Fixed Pulse.EachScalar at fixed
  induction given using Pulse.parts_induction with
  | plain fields => rw [pulse, pulse, plain_pulse_eq first second fixed]
  | append parts ih =>
      rw [Pulse.each_append_iff] at fixed
      rw [pulse, pulse, pulses_congr first second fun part member =>
        ih part member (fixed part member)]
  | slice inner interval ih => rw [pulse, pulse, ih fixed.1]
  | named name inner ih => rw [pulse, pulse, ih fixed]

/-- The duration to which the pulses of a plain sequence are extended does not depend on the
bindings either, since padded pulses are fixed. -/
theorem plain_sequence_eq {requirements : Requirements} {given : PerCoupling Pulse}
    (targetsFixed : ∀ coupling, EachTarget Scalar.Fixed (requirements.of coupling))
    (fixed : given.EachPulse Pulse.Fixed) :
    plainSequence first requirements given = plainSequence second requirements given := by
  unfold plainSequence
  dsimp only
  rw [mapM_congr fun coupling _ => ?_]
  have givenFixed := given_pulse_each fixed coupling
  unfold givenPulse at givenFixed
  rw [pulse_eq first second _ _ givenFixed]
  refine bind_congr fun result padded => ?_
  have resultFixed := pulse_each Scalar.fixed_literal (targetsFixed coupling) _ _ givenFixed padded
  rw [(result.symbolic_duration_each Scalar.fixed_family resultFixed).eval_eq first second]

theorem sequences_congr {requirements : Requirements} {parts : List Sequence}
    (each : ∀ part ∈ parts,
      sequence first requirements part = sequence second requirements part) :
    sequences first requirements parts = sequences second requirements parts := by
  induction parts with
  | nil => rfl
  | cons part rest ih =>
      rw [sequences, sequences, each part (by simp),
        ih fun other member => each other (by simp [member])]

theorem sequence_eq {requirements : Requirements}
    (targetsFixed : ∀ coupling, EachTarget Scalar.Fixed (requirements.of coupling))
    (given : Sequence) (fixed : given.Fixed) :
    sequence first requirements given = sequence second requirements given := by
  unfold Sequence.Fixed Sequence.EachScalar at fixed
  induction given using Sequence.parts_induction with
  | plain pulses => rw [sequence, sequence, plain_sequence_eq first second targetsFixed fixed]
  | append parts ih =>
      rw [Sequence.each_append_iff] at fixed
      rw [sequence, sequence, sequences_congr first second fun part member =>
        ih part member (fixed part member)]
  | slice inner interval ih => rw [sequence, sequence, ih fixed.1]
  | named name inner ih => rw [sequence, sequence, ih fixed]

end Padding

theorem Sequence.Fixed.pad_eq [Natives] (first second : ScalarBindings) {sequence : Sequence}
    (fixed : sequence.Fixed) : sequence.pad first = sequence.pad second :=
  Padding.sequence_eq first second (Requirements.of_channels_each (Sequence.channels_each fixed))
    sequence fixed

end Analog
