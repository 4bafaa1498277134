import Analog.Proofs.Evaluation
import Analog.Proofs.StepFunctions
import Analog.Waveform.Builtin

/-!
# Constant lowering agrees with evaluation

A series tracks a signal if both last equally long and the signal has the value of the step
wherever no breakpoint lies. Each operation on series keeps this relation to the operation
on signals, and so the series of a waveform tracks its meaning. At breakpoints nothing is
claimed: there a signal has the value of the closed part it is in, a series that of the
step to the right.
-/

set_option autoImplicit false

namespace Analog.ConstantSeries

open Breakpoints

/-- The signal has the value of the step wherever no breakpoint lies. -/
structure Tracks (series : ConstantSeries) (meaning : Signal) : Prop where
  formed : WellFormed series.points
  bounded : meaning.Bounded
  lasts : meaning.duration = series.duration
  agrees : ∀ time, 0 ≤ time → time < series.duration → time ∉ times series.points →
    meaning.value time = .ok (series.step time)

variable {series left right joined : ConstantSeries} {meaning leftMeaning rightMeaning : Signal}

/-- Past the end both are zero, so the agreement needs no upper bound. -/
theorem Tracks.agrees_from_start (tracks : Tracks series meaning) {time : Decimal}
    (nonneg : 0 ≤ time) (absent : time ∉ times series.points) :
    meaning.value time = .ok (series.step time) := by
  rcases lt_trichotomy time series.duration with before | final | after
  · exact tracks.agrees time nonneg before absent
  · rw [final] at absent
    exact absurd tracks.formed.duration_mem_times absent
  · rw [step_after_end after.le]
    apply tracks.bounded.silent
    rw [tracks.lasts]
    exact Or.inr after

theorem level_tracks {duration value : Decimal} {inside : Decimal → Outcome Decimal}
    (nonneg : 0 ≤ duration)
    (steady : ∀ time, 0 ≤ time → time < duration → inside time = .ok value) :
    Tracks (level duration value) (Signal.within duration inside) := by
  refine ⟨level_well_formed duration value nonneg, Signal.within_bounded nonneg,
    (duration_level duration value).symm, ?_⟩
  intro time timeNonneg before _
  rw [duration_level] at before
  rw [Signal.within_inside timeNonneg before.le, steady time timeNonneg before,
    step_level duration value timeNonneg before]

theorem map_tracks (f : Decimal → Decimal) {inside : Decimal → Outcome Decimal}
    (tracks : Tracks series meaning)
    (applied : ∀ time value, meaning.value time = .ok value → inside time = .ok (f value)) :
    Tracks (series.map f) (Signal.within meaning.duration inside) := by
  refine ⟨map_well_formed f tracks.formed, Signal.within_bounded tracks.bounded.nonneg,
    tracks.lasts.trans (duration_map f).symm, ?_⟩
  intro time nonneg before absent
  rw [times_map] at absent
  rw [duration_map] at before
  rw [Signal.within_inside nonneg (by rw [tracks.lasts]; exact before.le),
    step_map f tracks.formed nonneg before]
  exact applied time _ (tracks.agrees time nonneg before absent)

theorem negate_tracks (tracks : Tracks series meaning) :
    Tracks (series.map (-·)) meaning.negate := by
  apply map_tracks _ tracks
  intro time value found
  rw [found]
  rfl

theorem scaled_tracks (factor : Decimal) (tracks : Tracks series meaning) :
    Tracks (series.map (factor * ·)) (meaning.scaled (.ok factor)) := by
  apply map_tracks _ tracks
  intro time value found
  rw [Outcome.ok_bind, found]
  rfl

theorem plus_tracks (leftTracks : Tracks left leftMeaning) (rightTracks : Tracks right rightMeaning) :
    Tracks (left.plus right) (leftMeaning.plus rightMeaning) := by
  have lasts : max leftMeaning.duration rightMeaning.duration = (left.plus right).duration := by
    rw [duration_plus leftTracks.formed rightTracks.formed, leftTracks.lasts, rightTracks.lasts]
  refine ⟨plus_well_formed leftTracks.formed rightTracks.formed,
    Signal.within_bounded (leftTracks.bounded.nonneg.trans (le_max_left _ _)), lasts, ?_⟩
  intro time nonneg before absent
  rw [times_plus, mem_union, not_or] at absent
  have reached : time ≤ max leftMeaning.duration rightMeaning.duration := by
    rw [lasts]
    exact before.le
  rw [duration_plus leftTracks.formed rightTracks.formed] at before
  unfold Signal.plus
  rw [Signal.within_inside nonneg reached, rightTracks.agrees_from_start nonneg absent.2,
    Outcome.ok_bind, leftTracks.agrees_from_start nonneg absent.1, Outcome.ok_bind,
    step_plus leftTracks.formed rightTracks.formed nonneg before]
  rfl

theorem slice_tracks (tracks : Tracks series meaning) {start stop : Decimal}
    {part : ConstantSeries} (sliced : series.slice start stop = .ok part) :
    Tracks part (meaning.cut start stop) := by
  obtain ⟨⟨startNonneg, ordered, _⟩, _⟩ := (slice_ok_iff start stop part).1 sliced
  refine ⟨slice_well_formed tracks.formed sliced, Signal.within_bounded (sub_nonneg.2 ordered),
    (duration_slice tracks.formed sliced).symm, ?_⟩
  intro time nonneg before absent
  rw [duration_slice tracks.formed sliced] at before
  have originalAbsent : time + start ∉ times series.points := fun member =>
    absent (mem_times_slice tracks.formed sliced nonneg before member)
  unfold Signal.cut
  rw [Signal.within_inside nonneg before.le,
    tracks.agrees_from_start (add_nonneg nonneg startNonneg) originalAbsent,
    step_slice tracks.formed sliced nonneg before]

/-- Sample points under constant interpolation are their own series. -/
theorem sampled_tracks (bounded : meaning.Bounded) {subject : Unit → String}
    {step : Outcome Decimal} {points : SamplePoints}
    (found : Signal.samplePoints subject meaning step .constant = .ok points) :
    Tracks ⟨List.zipWith Breakpoint.mk points.times points.values⟩
      (Signal.sampled .constant (.ok points) meaning.duration) := by
  have formed := Signal.samples_well_formed bounded.nonneg found
  have lasts := Signal.duration_of_samples found
  refine ⟨formed, Signal.within_bounded bounded.nonneg, lasts.symm, ?_⟩
  intro time nonneg before _
  unfold duration at before
  have pointTimes := Signal.times_of_samples found
  unfold Signal.sampled
  rw [Signal.within_inside nonneg (by rw [← lasts]; exact before.le), Outcome.ok_bind]
  obtain ⟨point, holding, holds⟩ := holds_segment _ formed time nonneg
  rw [step_of_holds formed before holds]
  rw [pointTimes, ← last_at_most_eq_segment] at holding
  obtain ⟨_, value, _, valueFound, rfl⟩ := List.getElem?_zipWith_eq_some.1 holding
  unfold Signal.sampledValue
  dsimp only
  rw [List.getD_eq_getElem?_getD, valueFound]
  rfl

theorem single_tracks (tracks : Tracks series meaning) :
    Tracks series (Signal.concatenate [meaning]) := by
  have total : Signal.totalDuration [meaning] = meaning.duration := by
    rw [Signal.total_duration_cons, Signal.total_duration_nil, add_zero]
  refine ⟨tracks.formed, Signal.within_bounded (by rw [total]; exact tracks.bounded.nonneg),
    total.trans tracks.lasts, ?_⟩
  intro time nonneg before absent
  rw [← tracks.lasts] at before
  unfold Signal.concatenate
  rw [Signal.within_inside nonneg (by rw [total]; exact before.le),
    Signal.sequence_value_single meaning (nonneg.trans_lt before) before.le]
  exact tracks.agrees_from_start nonneg absent

variable {before : List Signal}

theorem tracks_empty_part (tracks : Tracks joined (Signal.concatenate before))
    (empty : meaning.duration = 0) :
    Tracks joined (Signal.concatenate (before ++ [meaning])) := by
  have total : Signal.totalDuration (before ++ [meaning]) = Signal.totalDuration before := by
    simp [empty]
  have sameSignal : Signal.concatenate (before ++ [meaning]) = Signal.concatenate before := by
    unfold Signal.concatenate
    rw [total]
    congr 1
    funext time
    exact Signal.sequence_value_append_empty before [meaning] (by simp [empty])
  rw [sameSignal]
  exact tracks

theorem sequence_value_last (beforeBounded : ∀ part ∈ before, part.Bounded)
    (positive : 0 < meaning.duration) {time : Decimal}
    (late : Signal.totalDuration before ≤ time)
    (reached : time ≤ Signal.totalDuration before + meaning.duration) :
    Signal.sequenceValue (before ++ [meaning]) time =
      meaning.value (time - Signal.totalDuration before) := by
  rw [Signal.sequence_value_after before [meaning] beforeBounded (by simp [positive.ne']) late]
  exact Signal.sequence_value_single meaning positive (by linarith)

theorem tracks_first_part (beforeBounded : ∀ part ∈ before, part.Bounded)
    (empty : Signal.totalDuration before = 0) (tracks : Tracks series meaning)
    (positive : 0 < series.duration) :
    Tracks series (Signal.concatenate (before ++ [meaning])) := by
  have total : Signal.totalDuration (before ++ [meaning]) = meaning.duration := by
    simp [empty]
  refine ⟨tracks.formed, Signal.within_bounded (by rw [total]; exact tracks.bounded.nonneg),
    total.trans tracks.lasts, ?_⟩
  intro time nonneg early absent
  rw [← tracks.lasts] at early positive
  unfold Signal.concatenate
  rw [Signal.within_inside nonneg (by rw [total]; exact early.le),
    sequence_value_last beforeBounded positive (by rw [empty]; exact nonneg)
      (by rw [empty, zero_add]; exact early.le), empty, sub_zero]
  exact tracks.agrees_from_start nonneg absent

theorem append_tracks (beforeBounded : ∀ part ∈ before, part.Bounded)
    (joinedTracks : Tracks joined (Signal.concatenate before)) (joinedPositive : 0 < joined.duration)
    (tracks : Tracks series meaning) (positive : 0 < series.duration) :
    Tracks (joined.append series) (Signal.concatenate (before ++ [meaning])) := by
  have joinedLasts : Signal.totalDuration before = joined.duration := joinedTracks.lasts
  have total : Signal.totalDuration (before ++ [meaning]) = joined.duration + series.duration := by
    simp [joinedLasts, tracks.lasts]
  refine ⟨append_well_formed joinedTracks.formed tracks.formed,
    Signal.within_bounded (by rw [total]; linarith),
    total.trans (duration_append joinedTracks.formed tracks.formed).symm, ?_⟩
  intro time nonneg early absent
  rw [duration_append joinedTracks.formed tracks.formed] at early
  rw [times_append joinedTracks.formed tracks.formed, List.mem_append, not_or] at absent
  rw [step_append joinedTracks.formed tracks.formed nonneg early]
  unfold Signal.concatenate
  rw [Signal.within_inside nonneg (by rw [total]; exact early.le)]
  split_ifs with inFirst
  · rw [Signal.sequence_value_before before [meaning] beforeBounded nonneg
      (by rw [joinedLasts]; exact inFirst)]
    have absentFirst : time ∉ times joined.points := by
      intro member
      obtain ⟨point, pointMember, rfl⟩ := List.mem_map.1 member
      exact absent.1 (List.mem_map.2
        ⟨point, mem_of_mem_of_time_lt joinedTracks.formed pointMember inFirst, rfl⟩)
    have agrees := joinedTracks.agrees time nonneg inFirst absentFirst
    unfold Signal.concatenate at agrees
    rwa [Signal.within_inside nonneg (by rw [joinedLasts]; exact inFirst.le)] at agrees
  · rw [not_lt] at inFirst
    rw [sequence_value_last beforeBounded (by rw [tracks.lasts]; exact positive)
      (by rw [joinedLasts]; exact inFirst) (by rw [joinedLasts, tracks.lasts]; exact early.le),
      joinedLasts]
    apply tracks.agrees_from_start (sub_nonneg.2 inFirst)
    intro member
    exact absent.2 (List.mem_map.2 ⟨time - joined.duration, member, sub_add_cancel _ _⟩)

theorem join_tracks (beforeBounded : ∀ part ∈ before, part.Bounded)
    (joinedTracks : Tracks joined (Signal.concatenate before)) (tracks : Tracks series meaning) :
    Tracks (if series.duration.isZero then joined
      else if joined.duration.isZero then series else joined.append series)
      (Signal.concatenate (before ++ [meaning])) := by
  have positive_of_ne : ∀ other : ConstantSeries, WellFormed other.points →
      ¬other.duration.isZero = true → 0 < other.duration := by
    intro other formed notZero
    rw [Decimal.is_zero_iff] at notZero
    exact lt_of_le_of_ne formed.duration_nonneg (Ne.symm notZero)
  split_ifs with empty joinedEmpty
  · rw [Decimal.is_zero_iff, ← tracks.lasts] at empty
    exact tracks_empty_part joinedTracks empty
  · rw [Decimal.is_zero_iff, ← joinedTracks.lasts] at joinedEmpty
    exact tracks_first_part beforeBounded joinedEmpty tracks (positive_of_ne _ tracks.formed empty)
  · exact append_tracks beforeBounded joinedTracks
      (positive_of_ne _ joinedTracks.formed joinedEmpty) tracks
      (positive_of_ne _ tracks.formed empty)

/-- All parts joined from left to right. The invariant is that what is joined so far tracks the
signals so far, one after the other. -/
theorem concatenate_tracks (parts : List (Option ConstantSeries)) (meanings : List Signal)
    (each : List.Forall₂ (fun part meaning => ∃ series, part = some series ∧ Tracks series meaning)
      parts meanings)
    (beforeBounded : ∀ part ∈ before, part.Bounded)
    (joinedTracks : Tracks joined (Signal.concatenate before)) :
    ∃ result, concatenate (some joined) parts = .ok (some result) ∧
      Tracks result (Signal.concatenate (before ++ meanings)) := by
  induction each generalizing joined before with
  | nil =>
      rw [List.append_nil]
      exact ⟨joined, rfl, joinedTracks⟩
  | @cons part meaning parts meanings tracked others ih =>
      obtain ⟨series, rfl, tracks⟩ := tracked
      have step := join_tracks beforeBounded joinedTracks tracks
      have allBounded : ∀ part ∈ before ++ [meaning], part.Bounded := by
        intro part member
        rcases List.mem_append.1 member with earlier | last
        · exact beforeBounded part earlier
        · rw [List.mem_singleton.1 last]
          exact tracks.bounded
      obtain ⟨result, joins, resultTracks⟩ := ih allBounded step
      rw [List.append_assoc, List.singleton_append] at resultTracks
      refine ⟨result, ?_, resultTracks⟩
      rw [← joins]
      conv_lhs => unfold concatenate
      rw [show Outcome.need (some series) = .ok series from rfl, Outcome.ok_bind]
      split_ifs <;> rfl

end Analog.ConstantSeries

namespace Analog.Waveform

open ConstantSeries Breakpoints

section Lowering

variable [Natives] {bindings : ScalarBindings}

def Tracked (bindings : ScalarBindings) (waveform : Waveform)
    (lowered : Option ConstantSeries) : Prop :=
  ∃ series meaning, lowered = some series ∧ signal bindings waveform = .ok meaning ∧
    Tracks series meaning

theorem tracked_leaf {waveform : Waveform} {duration : Scalar} {length value : Decimal}
    {inside : Decimal → Decimal → Outcome Decimal} {subject : Unit → String}
    (means : signal bindings waveform = (do
      let length ← leafDuration bindings duration
      return Signal.within length (inside length)))
    (lasts : Lowering.leafDuration bindings subject duration = .ok length)
    (steady : ∀ time, 0 ≤ time → time < length → inside length time = .ok value) :
    Tracked bindings waveform (some (level length value)) := by
  rw [Lowering.leaf_duration_ok_iff] at lasts
  have nonneg := ((leaf_duration_ok_iff _ _ _).1 lasts).2
  refine ⟨_, _, rfl, ?_, level_tracks nonneg steady⟩
  rw [means, lasts]
  rfl

theorem tracked_ramp (start stop duration : Scalar) (lowered : Option ConstantSeries)
    (lowers : constantSeries? bindings (.ramp start stop duration) = .ok lowered) :
    Tracked bindings (.ramp start stop duration) lowered := by
  unfold constantSeries? at lowers
  obtain ⟨length, lasts, rest⟩ := (Outcome.bind_ok_iff _ _ _).1 lowers
  obtain ⟨startValue, startOk, rest⟩ := (Outcome.bind_ok_iff _ _ _).1 rest
  obtain ⟨stopValue, stopOk, rest⟩ := (Outcome.bind_ok_iff _ _ _).1 rest
  obtain ⟨series, lined, rest⟩ := (Outcome.bind_ok_iff _ _ _).1 rest
  rw [Outcome.pure_ok_iff] at rest
  subst rest
  unfold ofLine at lined
  split_ifs at lined with flat
  rw [Except.ok.injEq] at lined
  subst lined
  apply tracked_leaf (signal.eq_def _ _) lasts
  intro time nonneg before
  have notZero : length ≠ 0 := (nonneg.trans_lt before).ne'
  have same : startValue = stopValue := by simpa [notZero] using flat
  rw [startOk, Outcome.ok_bind, stopOk, Outcome.ok_bind, if_neg (by simpa using notZero), same,
    Signal.between_level length stopValue time notZero]

theorem tracked_poly (coefficients : List Scalar) (duration : Scalar)
    (lowered : Option ConstantSeries)
    (lowers : constantSeries? bindings (.poly coefficients duration) = .ok lowered) :
    Tracked bindings (.poly coefficients duration) lowered := by
  unfold constantSeries? at lowers
  obtain ⟨length, lasts, rest⟩ := (Outcome.bind_ok_iff _ _ _).1 lowers
  obtain ⟨values, valuesOk, rest⟩ := (Outcome.bind_ok_iff _ _ _).1 rest
  obtain ⟨series, shaped, rest⟩ := (Outcome.bind_ok_iff _ _ _).1 rest
  rw [Outcome.pure_ok_iff] at rest
  subst rest
  -- Only the coefficients up to the last that is not zero decide what the polynomial is.
  have reduced : ∀ time, Signal.polynomialValue values time =
      Signal.polynomialValue (Lowering.significant values) time := fun time =>
    (Signal.polynomial_value_significant values time).symm
  unfold ConstantSeries.ofPolynomial at shaped
  split at shaped
  case h_1 none =>
      rw [Except.ok.injEq] at shaped
      subst shaped
      apply tracked_leaf (signal.eq_def _ _) lasts
      intro time _ _
      rw [valuesOk, Outcome.ok_bind, reduced, none]
      rfl
  case h_2 value single =>
      rw [Except.ok.injEq] at shaped
      subst shaped
      apply tracked_leaf (signal.eq_def _ _) lasts
      intro time _ _
      rw [valuesOk, Outcome.ok_bind, reduced, single]
      simp [Signal.polynomialValue, pure, Except.pure]
  case h_3 value others _ several =>
      split_ifs at shaped with empty
      rw [Except.ok.injEq] at shaped
      subst shaped
      apply tracked_leaf (signal.eq_def _ _) lasts
      intro time nonneg before
      rw [Decimal.is_zero_iff] at empty
      rw [empty] at before
      exact absurd before (not_lt.2 nonneg)

theorem constant_series_all_ok_iff (bindings : ScalarBindings) (parts : List Waveform)
    (lowered : List (Option ConstantSeries)) :
    constantSeriesAll bindings parts = .ok lowered ↔
      List.Forall₂ (fun part series => constantSeries? bindings part = .ok series)
        parts lowered := by
  induction parts generalizing lowered with
  | nil => simp [constantSeriesAll, List.forall₂_nil_left_iff, eq_comm]
  | cons part rest ih =>
      unfold constantSeriesAll
      rw [Outcome.bind_ok_iff]
      constructor
      · rintro ⟨series, lowers, remaining⟩
        obtain ⟨others, othersLower, same⟩ := (Outcome.bind_ok_iff _ _ _).1 remaining
        rw [Outcome.pure_ok_iff] at same
        subst same
        exact List.Forall₂.cons lowers ((ih others).1 othersLower)
      · intro each
        cases each with
        | cons lowers others =>
            exact ⟨_, lowers, (Outcome.bind_ok_iff _ _ _).2 ⟨_, (ih _).2 others, rfl⟩⟩

theorem tracked_append (parts : List Waveform) (someParts : parts ≠ [])
    (each : ∀ part ∈ parts, ∀ lowered, constantSeries? bindings part = .ok lowered →
      Tracked bindings part lowered)
    (lowered : Option ConstantSeries)
    (lowers : constantSeries? bindings (.append parts) = .ok lowered) :
    Tracked bindings (.append parts) lowered := by
  unfold constantSeries? at lowers
  obtain ⟨found, allLower, joins⟩ := (Outcome.bind_ok_iff _ _ _).1 lowers
  rw [constant_series_all_ok_iff] at allLower
  -- Every part has a series and a meaning that it tracks.
  have tracked : ∃ meanings, signals bindings parts = .ok meanings ∧
      List.Forall₂ (fun part meaning => ∃ series, part = some series ∧ Tracks series meaning)
        found meanings := by
    clear joins someParts lowers
    induction allLower with
    | nil => exact ⟨[], rfl, List.Forall₂.nil⟩
    | @cons part series parts others partLowers _ ih =>
        obtain ⟨meanings, mean, related⟩ := ih fun other member => each other (by simp [member])
        obtain ⟨line, meaning, same, means, tracks⟩ := each part (by simp) series partLowers
        refine ⟨meaning :: meanings, ?_, List.Forall₂.cons ⟨line, same, tracks⟩ related⟩
        unfold signals
        rw [means, Outcome.ok_bind, mean]
        rfl
  obtain ⟨meanings, mean, related⟩ := tracked
  cases related with
  | nil => exact absurd (List.forall₂_nil_right_iff.1 allLower) someParts
  | @cons part meaning rest others first related =>
      obtain ⟨series, rfl, tracks⟩ := first
      have firstBounded : ∀ part ∈ [meaning], part.Bounded := by
        intro part member
        rw [List.mem_singleton.1 member]
        exact tracks.bounded
      obtain ⟨result, joined, resultTracks⟩ :=
        concatenate_tracks rest others related firstBounded (single_tracks tracks)
      have same : some result = lowered := by
        unfold ConstantSeries.concatenate at joins
        rw [joined, Except.ok.injEq] at joins
        exact joins
      refine ⟨result, _, same.symm, ?_, resultTracks⟩
      unfold signal
      rw [mean]
      rfl

theorem tracked_sample (inner : Waveform) (step : Scalar) (interpolation : Interpolation)
    (lowered : Option ConstantSeries)
    (lowers : constantSeries? bindings (.sample inner step interpolation) = .ok lowered) :
    Tracked bindings (.sample inner step interpolation) lowered := by
  unfold constantSeries? at lowers
  cases interpolation with
  | linear => exact absurd lowers (by simp)
  | constant =>
      obtain ⟨found, sampled, rest⟩ := (Outcome.bind_ok_iff _ _ _).1 lowers
      rw [Outcome.pure_ok_iff] at rest
      subst rest
      unfold Lowering.sampled at sampled
      obtain ⟨meaning, means, sampled⟩ := (Outcome.bind_ok_iff _ _ _).1 sampled
      obtain ⟨points, pointsOk, same⟩ := (Outcome.bind_ok_iff _ _ _).1 sampled
      rw [Outcome.pure_ok_iff] at same
      subst same
      refine ⟨_, _, rfl, ?_, sampled_tracks (signal_bounded bindings inner meaning means) pointsOk⟩
      unfold signal
      rw [means, Outcome.ok_bind, pointsOk]
      rfl

/-- The series of a waveform tracks its meaning, unless waveforms one after the other are none. -/
theorem constant_series_tracked (waveform : Waveform) (lowered : Option ConstantSeries)
    (filled : ∀ node ∈ waveform.exposed, node ≠ .append [])
    (lowers : constantSeries? bindings waveform = .ok lowered) :
    Tracked bindings waveform lowered := by
  induction waveform using Waveform.parts_induction generalizing lowered with
  | constant value duration =>
      unfold constantSeries? at lowers
      obtain ⟨length, lasts, rest⟩ := (Outcome.bind_ok_iff _ _ _).1 lowers
      obtain ⟨number, valueOk, rest⟩ := (Outcome.bind_ok_iff _ _ _).1 rest
      rw [Outcome.pure_ok_iff] at rest
      subst rest
      exact tracked_leaf (signal.eq_def _ _) lasts fun _ _ _ => valueOk
  | ramp start stop duration => exact tracked_ramp start stop duration lowered lowers
  | poly coefficients duration => exact tracked_poly coefficients duration lowered lowers
  | native name function duration parameters =>
      unfold constantSeries? at lowers
      exact absurd lowers (by simp)
  | negative inner ih =>
      unfold constantSeries? at lowers
      obtain ⟨found, innerLowers, rest⟩ := (Outcome.bind_ok_iff _ _ _).1 lowers
      obtain ⟨series, meaning, rfl, means, tracks⟩ :=
        ih found (fun node member => filled node (by simp [exposed, member])) innerLowers
      rw [show Outcome.need (some series) = .ok series from rfl, Outcome.ok_bind,
        Outcome.pure_ok_iff] at rest
      refine ⟨_, _, rest.symm, ?_, negate_tracks tracks⟩
      unfold signal
      rw [means]
      rfl
  | add left right leftIh rightIh =>
      unfold constantSeries? at lowers
      obtain ⟨leftFound, leftLowers, rest⟩ := (Outcome.bind_ok_iff _ _ _).1 lowers
      obtain ⟨rightFound, rightLowers, rest⟩ := (Outcome.bind_ok_iff _ _ _).1 rest
      obtain ⟨leftSeries, leftMeaning, rfl, leftMeans, leftTracks⟩ :=
        leftIh leftFound (fun node member => filled node (by simp [exposed, member])) leftLowers
      obtain ⟨rightSeries, rightMeaning, rfl, rightMeans, rightTracks⟩ :=
        rightIh rightFound (fun node member => filled node (by simp [exposed, member])) rightLowers
      rw [show Outcome.need (some leftSeries) = .ok leftSeries from rfl, Outcome.ok_bind,
        show Outcome.need (some rightSeries) = .ok rightSeries from rfl, Outcome.ok_bind,
        Outcome.pure_ok_iff] at rest
      refine ⟨_, _, rest.symm, ?_, plus_tracks leftTracks rightTracks⟩
      unfold signal
      rw [leftMeans, Outcome.ok_bind, rightMeans]
      rfl
  | scale factor inner ih =>
      unfold constantSeries? at lowers
      obtain ⟨found, innerLowers, rest⟩ := (Outcome.bind_ok_iff _ _ _).1 lowers
      obtain ⟨number, factorOk, rest⟩ := (Outcome.bind_ok_iff _ _ _).1 rest
      obtain ⟨series, meaning, rfl, means, tracks⟩ :=
        ih found (fun node member => filled node (by simp [exposed, member])) innerLowers
      rw [show Outcome.need (some series) = .ok series from rfl, Outcome.ok_bind,
        Outcome.pure_ok_iff] at rest
      refine ⟨_, _, rest.symm, ?_, scaled_tracks number tracks⟩
      unfold signal
      rw [means, factorOk]
      rfl
  | slice inner interval ih =>
      unfold constantSeries? at lowers
      obtain ⟨found, innerLowers, rest⟩ := (Outcome.bind_ok_iff _ _ _).1 lowers
      obtain ⟨series, meaning, rfl, means, tracks⟩ :=
        ih found (fun node member => filled node (by simp [exposed, member])) innerLowers
      rw [show Outcome.need (some series) = .ok series from rfl, Outcome.ok_bind] at rest
      obtain ⟨⟨start, stop⟩, bounds, rest⟩ := (Outcome.bind_ok_iff _ _ _).1 rest
      obtain ⟨part, sliced, rest⟩ := (Outcome.bind_ok_iff _ _ _).1 rest
      rw [Outcome.pure_ok_iff] at rest
      refine ⟨_, _, rest.symm, ?_, slice_tracks tracks sliced⟩
      unfold signal
      rw [means, Outcome.ok_bind, tracks.lasts, bounds]
      rfl
  | append parts ih =>
      have someParts : parts ≠ [] := by
        rintro rfl
        exact filled (.append []) (by simp [exposed]) rfl
      apply tracked_append parts someParts _ lowered lowers
      intro part member found partLowers
      apply ih part member found _ partLowers
      intro node nodeMember
      apply filled
      rw [exposed, List.mem_cons, mem_exposed_all]
      exact Or.inr ⟨part, member, nodeMember⟩
  | record name inner side ih =>
      unfold constantSeries? at lowers
      unfold Tracked signal
      exact ih lowered (fun node member => filled node (by simp [exposed, member])) lowers
  | sample inner step interpolation _ =>
      exact tracked_sample inner step interpolation lowered lowers
  | smooth inner radius kernel _ =>
      unfold constantSeries? at lowers
      exact absurd lowers (by simp)
  | aligned inner alignment fill ih =>
      unfold constantSeries? at lowers
      unfold Tracked signal
      exact ih lowered (fun node member => filled node (by simp [exposed, member])) lowers

/-- A waveform lasts as long as its constant series, and everywhere but at the breakpoints it has
the value of the series, whether its meaning is asked or its evaluator. -/
theorem lower_constant_agrees (waveform : Waveform) (series : ConstantSeries)
    (filled : ∀ node ∈ waveform.exposed, node ≠ .append [])
    (lowers : lowerConstant bindings waveform = .ok series) :
    duration bindings waveform = .ok series.duration ∧
      ∃ evaluator, Evaluator.of bindings waveform = .ok evaluator ∧
        ∀ time, 0 ≤ time → time ≤ series.duration → time ∉ times series.points →
          valueAt bindings waveform time = .ok (series.eval time) ∧
            evaluator.valueAt time = .ok (series.eval time) := by
  unfold lowerConstant at lowers
  obtain ⟨lowered, found, needed⟩ := (Outcome.bind_ok_iff _ _ _).1 lowers
  rw [Outcome.need_ok_iff] at needed
  subst needed
  obtain ⟨_, meaning, same, means, tracks⟩ := constant_series_tracked waveform _ filled found
  rw [Option.some.injEq] at same
  subst same
  obtain ⟨evaluator, made, _, evaluates⟩ := Evaluator.of_signal means
  refine ⟨by rw [duration_of_signal means, tracks.lasts], evaluator, made, ?_⟩
  intro time nonneg reached absent
  have before : time < series.duration := by
    apply lt_of_le_of_ne reached
    rintro rfl
    exact absent tracks.formed.duration_mem_times
  have agrees : meaning.value time = .ok (series.eval time) := by
    rw [tracks.agrees time nonneg before absent, eval_eq_step nonneg before]
  refine ⟨?_, (evaluates time _).2 agrees⟩
  unfold valueAt
  rw [means, Outcome.ok_bind, agrees]

end Lowering

/-- A sampled ramp, an empty part and a constant, and a slice that ends before they do. -/
def steppedSum : Waveform :=
  .add
    (.append [.sample (.ramp (.literal 0) (.literal 4) (.literal 2)) (.literal 1) .constant,
      .constant (.literal 5) (.literal 0), .constant (.literal 1) (.literal 1)])
    (.slice (.constant (.literal 2) (.literal 4))
      ⟨some (.literal 1), some (.literal (.ofScaled 25 1))⟩)

theorem lower_constant_agrees_stepped_sum :
    lowerConstant .empty steppedSum =
        .ok ⟨[⟨0, 2⟩, ⟨1, 4⟩, ⟨.ofScaled 15 1, 2⟩, ⟨2, 1⟩, ⟨3, 1⟩]⟩ ∧
      duration .empty steppedSum = .ok 3 ∧
      valueAt .empty steppedSum (.ofScaled 17 1) = .ok 2 ∧
      ∃ evaluator, Evaluator.of .empty steppedSum = .ok evaluator ∧
        evaluator.valueAt (.ofScaled 17 1) = .ok 2 := by
  have lowers : lowerConstant .empty steppedSum =
      .ok ⟨[⟨0, 2⟩, ⟨1, 4⟩, ⟨.ofScaled 15 1, 2⟩, ⟨2, 1⟩, ⟨3, 1⟩]⟩ := rfl
  have filled : ∀ node ∈ steppedSum.exposed, node ≠ .append [] := by
    simp [steppedSum, exposed, exposedAll]
  obtain ⟨lasts, evaluator, made, agrees⟩ := lower_constant_agrees steppedSum _ filled lowers
  obtain ⟨meant, found⟩ := agrees (.ofScaled 17 1) (by decide) (by decide) (by decide)
  exact ⟨lowers, lasts, meant, evaluator, made, found⟩

end Analog.Waveform
