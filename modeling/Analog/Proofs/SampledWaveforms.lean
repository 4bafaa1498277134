import Analog.Proofs.Evaluation
import Analog.Waveform.Builtin
import Mathlib.Data.Rat.Floor

/-!
# Sampled waveforms

A sampled waveform is known at the times of a grid: the multiples of its step before the end,
and the end. Lines between samples meet the waveform inside at every time of the grid. Steps
hold its value from each multiple on, and the last one is held at the end as well.
-/

set_option autoImplicit false

namespace Analog

namespace Breakpoints

/-- The search finds the index whose time is reached while no later one is. -/
theorem last_at_most_eq {times : List Decimal} (increasing : times.Pairwise (· < ·))
    {time reached : Decimal} {index : Nat} (found : times[index]? = some reached)
    (notLater : reached ≤ time)
    (beyond : ∀ next later, index < next → times[next]? = some later → time < later) :
    lastAtMost times time = index := by
  have isReached : index ∈ Breakpoints.reached times time := ⟨reached, found, notLater⟩
  have greatest : IsGreatest (Breakpoints.reached times time) index := by
    refine ⟨isReached, ?_⟩
    rintro next ⟨later, nextFound, laterReached⟩
    by_contra after
    exact absurd laterReached (not_le.2 (beyond next later (not_le.1 after) nextFound))
  rw [last_at_most_eq_segment]
  exact (segment_greatest increasing ⟨index, isReached⟩).unique greatest

theorem between_start {time₀ value₀ time₁ value₁ : Decimal} (apart : time₁ ≠ time₀) :
    between time₀ value₀ time₁ value₁ time₀ = .ok value₀ := by
  unfold between
  rw [sub_self, mul_zero,
    (Decimal.quotient_ok_iff _ _ _).2 (Decimal.zero_div _ (sub_ne_zero.2 apart)), Outcome.ok_bind,
    add_zero]
  rfl

end Breakpoints

namespace Signal

open Breakpoints

variable {duration step time : Decimal}

theorem multiple_lt_iff (positive : 0 < step) (first second : Nat) :
    Decimal.ofInt first * step < Decimal.ofInt second * step ↔ first < second := by
  rw [mul_lt_mul_iff_left₀ positive, Decimal.lt_iff_to_rat, Decimal.to_rat_of_int,
    Decimal.to_rat_of_int]
  exact_mod_cast Iff.rfl

theorem multiple_nonneg (positive : 0 < step) (index : Nat) : 0 ≤ Decimal.ofInt index * step := by
  apply mul_nonneg _ positive.le
  rw [Decimal.le_iff_to_rat, Decimal.to_rat_zero, Decimal.to_rat_of_int]
  positivity

/-- There is a last multiple of the step that is not later than a time. -/
theorem exists_last_multiple (positive : 0 < step) (nonneg : 0 ≤ time) :
    ∃ index, IsGreatest {number : ℕ | Decimal.ofInt number * step ≤ time} index := by
  have stepPositive : 0 < step.toRat := by
    rwa [Decimal.lt_iff_to_rat, Decimal.to_rat_zero] at positive
  have timeNonneg : 0 ≤ time.toRat := by
    rwa [Decimal.le_iff_to_rat, Decimal.to_rat_zero] at nonneg
  have below : ∀ number : ℕ, Decimal.ofInt number * step ≤ time ↔
      number ≤ ⌊time.toRat / step.toRat⌋₊ := by
    intro number
    rw [Nat.le_floor_iff (by positivity), le_div_iff₀ stepPositive, Decimal.le_iff_to_rat,
      Decimal.to_rat_mul, Decimal.to_rat_of_int]
    exact_mod_cast Iff.rfl
  refine ⟨⌊time.toRat / step.toRat⌋₊, (below _).2 le_rfl, ?_⟩
  intro number early
  exact (below number).1 early

/-- The times at which a waveform is sampled: a step apart from zero on as long as they come
before the duration, and then the duration. The loop that lists them ends by itself after as
many rounds as there are multiples before the duration. -/
structure SampleGrid (duration step : Decimal) (count : Nat) (times : List Decimal) : Prop where
  positive : 0 < step
  least : IsLeast {number : ℕ | duration ≤ Decimal.ofInt number * step} count
  ends : ∀ fuel, count ≤ fuel → timesBefore duration step fuel 0 ++ [duration] = times
  multiples : times =
    (List.range count).map (fun (index : ℕ) => Decimal.ofInt index * step) ++ [duration]
  increasing : times.Pairwise (· < ·)

theorem sample_grid (duration step : Decimal) (positive : 0 < step) :
    SampleGrid duration step (stepCount duration step) (sampleTimes duration step) where
  positive := positive
  least := step_count_least duration step positive
  ends := by
    intro fuel enough
    rw [times_before_enough duration step positive fuel enough,
      sample_times_eq duration step positive]
  multiples := sample_times_eq duration step positive
  increasing := sample_times_increasing duration step positive

namespace SampleGrid

variable {count index : Nat} {times : List Decimal}

theorem length_times (grid : SampleGrid duration step count times) : times.length = count + 1 := by
  rw [grid.multiples]
  simp

theorem multiple (grid : SampleGrid duration step count times) (early : index < count) :
    times[index]? = some (Decimal.ofInt index * step) := by
  rw [grid.multiples, List.getElem?_append_left (by simpa using early)]
  simp [early]

theorem last (grid : SampleGrid duration step count times) : times[count]? = some duration := by
  rw [grid.multiples]
  simp

theorem multiple_lt_duration (grid : SampleGrid duration step count times) (early : index < count) :
    Decimal.ofInt index * step < duration := by
  by_contra late
  exact absurd (grid.least.2 (not_lt.1 late)) (not_le.2 early)

theorem lt_count (grid : SampleGrid duration step count times)
    (early : Decimal.ofInt index * step < duration) : index < count := by
  have reaches : duration ≤ Decimal.ofInt count * step := grid.least.1
  exact (multiple_lt_iff grid.positive index count).1 (early.trans_le reaches)

theorem count_pos (grid : SampleGrid duration step count times) (positive : 0 < duration) :
    0 < count := by
  apply grid.lt_count
  rwa [show Decimal.ofInt ((0 : Nat) : Int) = 0 from rfl, zero_mul]

theorem inside (grid : SampleGrid duration step count times) (nonneg : 0 ≤ duration)
    (member : time ∈ times) : 0 ≤ time ∧ time ≤ duration := by
  rw [grid.multiples, List.mem_append, List.mem_map, List.mem_singleton] at member
  rcases member with ⟨index, indexMember, rfl⟩ | rfl
  · have early := grid.multiple_lt_duration (List.mem_range.1 indexMember)
    exact ⟨multiple_nonneg grid.positive index, early.le⟩
  · exact ⟨nonneg, le_rfl⟩

theorem search_exact (grid : SampleGrid duration step count times)
    (found : times[index]? = some time) :
    lastAtMost times time = index := by
  apply last_at_most_eq grid.increasing found le_rfl
  intro next later after nextFound
  rcases List.getElem?_eq_some_iff.1 found with ⟨isInside, rfl⟩
  rcases List.getElem?_eq_some_iff.1 nextFound with ⟨nextInside, rfl⟩
  exact List.pairwise_iff_getElem.1 grid.increasing index next isInside nextInside after

/-- Before the end the search finds the last multiple of the step. -/
theorem search_multiple (grid : SampleGrid duration step count times)
    (greatest : IsGreatest {number : ℕ | Decimal.ofInt number * step ≤ time} index)
    (early : time < duration) : index < count ∧ lastAtMost times time = index := by
  have notLater : Decimal.ofInt index * step ≤ time := greatest.1
  have before := grid.lt_count (notLater.trans_lt early)
  refine ⟨before, last_at_most_eq grid.increasing (grid.multiple before) notLater ?_⟩
  intro next later after nextFound
  -- What comes next is a later multiple or the end, and the time is before both.
  by_cases nextBefore : next < count
  · rw [grid.multiple nextBefore, Option.some.injEq] at nextFound
    by_contra reached
    have tooGreat := greatest.2 (show Decimal.ofInt next * step ≤ time by
      rw [nextFound]
      exact not_lt.1 reached)
    omega
  · have isInside := (List.getElem?_eq_some_iff.1 nextFound).1
    rw [grid.length_times] at isInside
    have isLast : next = count := by omega
    rw [isLast, grid.last, Option.some.injEq] at nextFound
    rwa [← nextFound]

end SampleGrid

theorem get_flatten_end (values : List Decimal) (index : Nat) :
    (flattenEnd values)[index]? =
      if index + 1 = values.length then values[index - 1]? else values[index]? := by
  fun_induction flattenEnd values generalizing index with
  | case1 => simp
  | case2 value => cases index <;> simp
  | case3 value last =>
      rcases index with _ | _ | index
      · simp
      · simp
      · simp
  | case4 first second third rest ih =>
      cases index with
      | zero => simp
      | succ index =>
          rw [List.getElem?_cons_succ, ih]
          cases index with
          | zero => simp
          | succ index => simp

/-- At a sample time a line between samples has the value of the sample. -/
theorem linear_sample {points : SamplePoints} {index : Nat} {value : Decimal}
    (increasing : points.times.Pairwise (· < ·)) (found : points.times[index]? = some time)
    (valueFound : points.values[index]? = some value)
    (searched : lastAtMost points.times time = index) :
    sampledValue .linear points time = .ok value := by
  unfold sampledValue
  dsimp only
  rw [searched, List.getD_eq_getElem?_getD, List.getD_eq_getElem?_getD, found, valueFound]
  split
  · rename_i nextTime nextValue nextFound _
    rcases List.getElem?_eq_some_iff.1 found with ⟨inside, rfl⟩
    rcases List.getElem?_eq_some_iff.1 nextFound with ⟨nextInside, rfl⟩
    have ordered := List.pairwise_iff_getElem.1 increasing index (index + 1) inside nextInside
      (Nat.lt_succ_self _)
    rw [Option.getD_some, if_neg ordered.ne', Option.getD_some, between_start ordered.ne']
  · rfl

theorem constant_sample {points : SamplePoints} {index : Nat} {value : Decimal}
    (valueFound : points.values[index]? = some value)
    (searched : lastAtMost points.times time = index) :
    sampledValue .constant points time = .ok value := by
  unfold sampledValue
  dsimp only
  rw [searched, List.getD_eq_getElem?_getD, valueFound]
  rfl

variable {subject : Unit → String} {inner : Signal} {points : SamplePoints}

def keptValues : Interpolation → List Decimal → List Decimal
  | .linear, values => values
  | .constant, values => flattenEnd values

theorem sample_points_grid {interpolation : Interpolation}
    (found : samplePoints subject inner (.ok step) interpolation = .ok points) :
    SampleGrid inner.duration step (stepCount inner.duration step) points.times ∧
      ∃ values, List.Forall₂ (fun time value => inner.value time = .ok value) points.times values ∧
        points.values = keptValues interpolation values := by
  rcases sample_points_ok _ _ _ _ _ found with
    ⟨stepValue, values, sameStep, positive, timesSame, valuesOk, valuesSame, _⟩
  rw [Except.ok.injEq] at sameStep
  subst sameStep
  constructor
  · rw [timesSame]
    exact sample_grid inner.duration step positive
  · refine ⟨values, (Outcome.mapM_ok_iff _ _ _).1 valuesOk, ?_⟩
    cases interpolation with
    | linear => exact valuesSame
    | constant => exact valuesSame

/-- Lines between samples meet the values inside at every sample time. -/
theorem linear_meets (nonneg : 0 ≤ inner.duration)
    (found : samplePoints subject inner (.ok step) .linear = .ok points)
    (member : time ∈ points.times) :
    ∃ value, (sampled .linear (.ok points) inner.duration).value time = .ok value ∧
      inner.value time = .ok value := by
  rcases sample_points_grid found with ⟨grid, values, each, sameValues⟩
  rcases List.getElem?_of_mem member with ⟨index, timeFound⟩
  rcases Outcome.target_at each timeFound with ⟨value, valueFound, valueOk⟩
  have covered := grid.inside nonneg member
  refine ⟨value, ?_, valueOk⟩
  unfold sampled
  rw [within_inside covered.1 covered.2, Outcome.ok_bind]
  exact linear_sample grid.increasing timeFound (by rw [sameValues, keptValues, valueFound])
    (grid.search_exact timeFound)

/-- Before the end steps hold the value inside at the last multiple of the step. -/
theorem constant_holds (found : samplePoints subject inner (.ok step) .constant = .ok points)
    (nonneg : 0 ≤ time) (early : time < inner.duration) {index : Nat}
    (greatest : IsGreatest {number : ℕ | Decimal.ofInt number * step ≤ time} index) :
    ∃ value, (sampled .constant (.ok points) inner.duration).value time = .ok value ∧
      inner.value (Decimal.ofInt index * step) = .ok value := by
  rcases sample_points_grid found with ⟨grid, values, each, sameValues⟩
  rcases grid.search_multiple greatest early with ⟨before, searched⟩
  rcases Outcome.target_at each (grid.multiple before) with ⟨value, valueFound, valueOk⟩
  refine ⟨value, ?_, valueOk⟩
  have notLast : index + 1 ≠ values.length := by
    rw [← each.length_eq, grid.length_times]
    omega
  unfold sampled
  rw [within_inside nonneg early.le, Outcome.ok_bind]
  apply constant_sample _ searched
  rw [sameValues, keptValues, get_flatten_end, if_neg notLast, valueFound]

/-- At the end steps hold the value inside at the multiple before it. -/
theorem constant_ends (found : samplePoints subject inner (.ok step) .constant = .ok points)
    (nonempty : 0 < inner.duration) :
    ∃ last value, stepCount inner.duration step = last + 1 ∧
      (sampled .constant (.ok points) inner.duration).value inner.duration = .ok value ∧
      inner.value (Decimal.ofInt ((last : ℕ) : Int) * step) = .ok value := by
  rcases sample_points_grid found with ⟨grid, values, each, sameValues⟩
  rcases Nat.exists_eq_add_one.2 (grid.count_pos nonempty) with ⟨last, count⟩
  have before : last < stepCount inner.duration step := by omega
  rcases Outcome.target_at each (grid.multiple before) with ⟨value, valueFound, valueOk⟩
  refine ⟨last, value, count, ?_, valueOk⟩
  have isLast : last + 1 + 1 = values.length := by
    rw [← each.length_eq, grid.length_times, count]
  have searched := grid.search_exact grid.last
  rw [count] at searched
  unfold sampled
  rw [within_inside nonempty.le le_rfl, Outcome.ok_bind]
  apply constant_sample _ searched
  rw [sameValues, keptValues, get_flatten_end, if_pos isLast, Nat.add_sub_cancel, valueFound]

end Signal

namespace Waveform

variable [Natives] {bindings : ScalarBindings}

/-- A sampled waveform has sample points only if the waveform inside has a meaning and the step a
value. -/
theorem sample_points_of_some {inner : Waveform} {step : Scalar} {interpolation : Interpolation}
    {points : SamplePoints}
    (found : (Waveform.sample inner step interpolation).samplePoints? bindings =
      some (.ok points)) :
    ∃ meaning stepValue, inner.signal bindings = .ok meaning ∧ step.eval bindings = .ok stepValue ∧
      0 < stepValue ∧
      Signal.samplePoints (fun _ => (Waveform.sample inner step interpolation).text) meaning
        (.ok stepValue) interpolation = .ok points ∧
      (Waveform.sample inner step interpolation).signal bindings =
        .ok (Signal.sampled interpolation (.ok points) meaning.duration) := by
  rw [samplePoints?, Option.some.injEq, Outcome.bind_ok_iff] at found
  rcases found with ⟨meaning, means, pointsOk⟩
  rcases Signal.sample_points_ok _ _ _ _ _ pointsOk with ⟨stepValue, _, stepOk, positive, _⟩
  refine ⟨meaning, stepValue, means, stepOk, positive, stepOk ▸ pointsOk, ?_⟩
  rw [signal, means, Outcome.ok_bind, pointsOk]
  rfl

end Waveform

namespace Evaluator

open Signal

def MeetAt (first : Evaluator) (time : Decimal) (second : Evaluator) (moment : Decimal) : Prop :=
  ∃ value, first.valueAt time = .ok value ∧ second.valueAt moment = .ok value

theorem meet_at_iff [Natives] {bindings : ScalarBindings} {first second : Waveform}
    {firstMeaning secondMeaning : Signal} {firstEvaluator secondEvaluator : Evaluator}
    (firstMade : of bindings first = .ok firstEvaluator)
    (firstMeans : first.signal bindings = .ok firstMeaning)
    (secondMade : of bindings second = .ok secondEvaluator)
    (secondMeans : second.signal bindings = .ok secondMeaning) (time moment : Decimal) :
    MeetAt firstEvaluator time secondEvaluator moment ↔
      ∃ value, firstMeaning.value time = .ok value ∧ secondMeaning.value moment = .ok value := by
  unfold MeetAt
  rw [value_at_eq firstMade, value_at_eq secondMade, Waveform.valueAt, Waveform.valueAt, firstMeans,
    secondMeans, Outcome.ok_bind, Outcome.ok_bind]

/-- How a sampled waveform follows the waveform inside. Lines between samples meet it at every
time of the grid. Steps have its value at the last multiple of the step that is not later, and
at the end its value at the multiple before. -/
def Follows (sampler inside : Evaluator) (length step : Decimal) (count : ℕ)
    (times : List Decimal) : Interpolation → Prop
  | .linear => ∀ time ∈ times, MeetAt sampler time inside time
  | .constant =>
    (∀ time, 0 ≤ time → time < length →
      ∃ index, IsGreatest {number : ℕ | Decimal.ofInt number * step ≤ time} index ∧
        MeetAt sampler time inside (Decimal.ofInt index * step)) ∧
    (0 < length → ∃ last : ℕ, count = last + 1 ∧
      MeetAt sampler length inside (Decimal.ofInt last * step))

/-- Samples are taken on the grid of the step, and a sampled waveform follows the waveform
inside. -/
theorem samples_reproduced [Natives] (bindings : ScalarBindings) (inner : Waveform) (step : Scalar)
    (interpolation : Interpolation) (points : SamplePoints)
    (found : (Waveform.sample inner step interpolation).samplePoints? bindings =
      some (.ok points)) :
    ∃ inside sampler length stepValue count, of bindings inner = .ok inside ∧
      of bindings (.sample inner step interpolation) = .ok sampler ∧
      inner.duration bindings = .ok length ∧ step.eval bindings = .ok stepValue ∧
      SampleGrid length stepValue count points.times ∧
      Follows sampler inside length stepValue count points.times interpolation := by
  rcases Waveform.sample_points_of_some found with
    ⟨meaning, stepValue, means, stepOk, positive, pointsOk, sampleMeans⟩
  rcases of_signal means with ⟨inside, insideMade, _⟩
  rcases of_signal sampleMeans with ⟨sampler, samplerMade, _⟩
  have meets := meet_at_iff samplerMade sampleMeans insideMade means
  refine ⟨inside, sampler, meaning.duration, stepValue, stepCount meaning.duration stepValue,
    insideMade, samplerMade, Waveform.duration_of_signal means, stepOk,
    (sample_points_grid pointsOk).1, ?_⟩
  cases interpolation with
  | linear =>
      intro time member
      rw [meets]
      have bounded := Waveform.signal_bounded bindings inner meaning means
      exact linear_meets bounded.nonneg pointsOk member
  | constant =>
      constructor
      · intro time nonneg early
        rcases exists_last_multiple positive nonneg with ⟨index, greatest⟩
        refine ⟨index, greatest, ?_⟩
        rw [meets]
        exact constant_holds pointsOk nonneg early greatest
      · intro nonempty
        rcases constant_ends pointsOk nonempty with ⟨last, value, count, sampled, held⟩
        refine ⟨last, count, ?_⟩
        rw [meets]
        exact ⟨value, sampled, held⟩

/-- A line of length one, sampled every three tenths: the last step is shorter. -/
def shortLastStep (interpolation : Interpolation) : Waveform :=
  .sample (.ramp (.literal 0) (.literal 1) (.literal 1)) (.literal (.ofScaled 3 1)) interpolation

def shortLastStepTimes : List Decimal := [0, .ofScaled 3 1, .ofScaled 6 1, .ofScaled 9 1, 1]

theorem samples_reproduced_short_last_step :
    let line : Waveform := .ramp (.literal 0) (.literal 1) (.literal 1)
    (∃ inside sampler, of .empty line = .ok inside ∧
      of .empty (shortLastStep .linear) = .ok sampler ∧
      MeetAt sampler (.ofScaled 6 1) inside (.ofScaled 6 1)) ∧
    ∃ inside sampler, of .empty line = .ok inside ∧
      of .empty (shortLastStep .constant) = .ok sampler ∧
      MeetAt sampler 1 inside (.ofScaled 9 1) := by
  intro line
  have linear : (shortLastStep .linear).samplePoints? .empty =
      some (.ok ⟨shortLastStepTimes, shortLastStepTimes⟩) := by
    rfl
  have constant : (shortLastStep .constant).samplePoints? .empty =
      some (.ok ⟨shortLastStepTimes, flattenEnd shortLastStepTimes⟩) := by
    rfl
  constructor
  · rcases samples_reproduced .empty line _ .linear _ linear with
      ⟨inside, sampler, _, _, _, insideMade, samplerMade, _, _, _, meets⟩
    exact ⟨inside, sampler, insideMade, samplerMade, meets (.ofScaled 6 1) (by decide)⟩
  · rcases samples_reproduced .empty line _ .constant _ constant with
      ⟨inside, sampler, length, stepValue, count, insideMade, samplerMade, lasts, steps, grid,
        _, ends⟩
    have sameLength : (1 : Decimal) = length := Except.ok.inj lasts
    have sameStep : Decimal.ofScaled 3 1 = stepValue := Except.ok.inj steps
    subst sameLength sameStep
    rcases ends (by decide) with ⟨last, isLast, meets⟩
    have listed : 5 = count + 1 := grid.length_times
    have fourth : last = 3 := by omega
    have nine : Decimal.ofInt ((3 : ℕ) : Int) * Decimal.ofScaled 3 1 = .ofScaled 9 1 := by decide
    rw [fourth, nine] at meets
    exact ⟨inside, sampler, insideMade, samplerMade, meets⟩

end Evaluator

end Analog
