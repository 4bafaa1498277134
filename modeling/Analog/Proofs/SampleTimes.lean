import Analog.Proofs.Breakpoints
import Analog.Proofs.Outcomes
import Analog.Waveform.Signal

/-!
# Sample times

Sample times are the multiples of the step before the duration and then the duration itself,
so they increase strictly from zero.
-/

set_option autoImplicit false

namespace Analog.Signal

open Breakpoints

private theorem of_int_add_nat (first second : Nat) :
    Decimal.ofInt ((first + second : Nat) : Int) = Decimal.ofInt first + Decimal.ofInt second := by
  apply Decimal.to_rat_injective
  rw [Decimal.to_rat_add, Decimal.to_rat_of_int, Decimal.to_rat_of_int, Decimal.to_rat_of_int]
  push_cast
  rfl

/-- A multiple of the step is sampled exactly if it lies before the duration. -/
theorem lt_step_count_iff (duration step : Decimal) (positive : 0 < step) (index : Nat) :
    index < stepCount duration step ↔ Decimal.ofInt index * step < duration := by
  have durationRaised := Decimal.raised_value duration (max duration.scale step.scale)
    (Nat.le_max_left _ _)
  have stepRaised := Decimal.raised_value step (max duration.scale step.scale)
    (Nat.le_max_right _ _)
  have power : (0 : ℚ) < 10 ^ max duration.scale step.scale := by positivity
  unfold stepCount
  dsimp only
  generalize duration.raised (max duration.scale step.scale) = length at *
  generalize step.raised (max duration.scale step.scale) = unit at *
  have unitPositive : 0 < unit := by
    rw [Decimal.lt_iff_to_rat, Decimal.to_rat_zero] at positive
    have castPositive : (0 : ℚ) < unit := by
      rw [stepRaised]
      exact mul_pos positive power
    exact_mod_cast castPositive
  have asIntegers : Decimal.ofInt index * step < duration ↔ (index : Int) * unit < length := by
    rw [Decimal.lt_iff_to_rat, Decimal.to_rat_mul, Decimal.to_rat_of_int,
      ← mul_lt_mul_iff_left₀ power, mul_assoc, ← stepRaised, ← durationRaised]
    exact_mod_cast Iff.rfl
  rw [asIntegers]
  split_ifs with empty
  · constructor
    · intro impossible
      exact absurd impossible (Nat.not_lt_zero _)
    · intro below
      have nonneg : 0 ≤ (index : Int) * unit := by positivity
      omega
  · rw [Int.lt_toNat, ← Int.add_one_le_iff, Int.le_ediv_iff_mul_le unitPositive, add_mul, one_mul]
    omega

/-- The steps needed to reach a duration are the least that reach it. -/
theorem step_count_least (duration step : Decimal) (positive : 0 < step) :
    IsLeast {number : ℕ | duration ≤ Decimal.ofInt number * step} (stepCount duration step) := by
  constructor
  · rw [Set.mem_ofPred_eq, ← not_lt, ← lt_step_count_iff duration step positive]
    exact lt_irrefl _
  · intro number reaches
    rwa [Set.mem_ofPred_eq, ← not_lt, ← lt_step_count_iff duration step positive, not_lt] at reaches

/-- From a multiple of the step on, the multiples before the duration are visited, as far as the
fuel allows. -/
theorem times_before_eq (duration step : Decimal) (positive : 0 < step) (fuel start : Nat) :
    timesBefore duration step fuel (Decimal.ofInt start * step) =
      (List.range' start (min fuel (stepCount duration step - start))).map
        fun (index : Nat) => Decimal.ofInt index * step := by
  induction fuel generalizing start with
  | zero => rw [Nat.zero_min, List.range'_zero, List.map_nil, timesBefore]
  | succ fuel ih =>
      unfold timesBefore
      split_ifs with early
      · rw [← lt_step_count_iff duration step positive] at early
        have next : Decimal.ofInt start * step + step =
            Decimal.ofInt ((start + 1 : Nat) : Int) * step := by
          rw [of_int_add_nat, add_mul, show Decimal.ofInt ((1 : Nat) : Int) = 1 from rfl, one_mul]
        have one : min (fuel + 1) (stepCount duration step - start) =
            min fuel (stepCount duration step - (start + 1)) + 1 := by
          omega
        rw [next, ih, one, List.range'_succ, List.map_cons]
      · rw [← lt_step_count_iff duration step positive] at early
        have none : stepCount duration step - start = 0 := by omega
        rw [none, Nat.min_zero, List.range'_zero, List.map_nil]

/-- Fuel for the steps needed to reach the duration is enough: more of it changes nothing. -/
theorem times_before_enough (duration step : Decimal) (positive : 0 < step) (fuel : Nat)
    (enough : stepCount duration step ≤ fuel) :
    timesBefore duration step fuel 0 = (List.range (stepCount duration step)).map
      fun (index : Nat) => Decimal.ofInt index * step := by
  have visited := times_before_eq duration step positive fuel 0
  rw [show Decimal.ofInt ((0 : Nat) : Int) = 0 from rfl, zero_mul, Nat.sub_zero,
    Nat.min_eq_right enough] at visited
  rw [visited, List.range_eq_range']

/-- Sample times are the multiples of the step before the duration, and the duration itself. -/
theorem sample_times_eq (duration step : Decimal) (positive : 0 < step) :
    sampleTimes duration step = (List.range (stepCount duration step)).map
      (fun (index : Nat) => Decimal.ofInt index * step) ++ [duration] := by
  unfold sampleTimes
  rw [times_before_enough duration step positive _ le_rfl]

theorem sample_times_zero (step : Decimal) (positive : 0 < step) : sampleTimes 0 step = [0] := by
  have none : stepCount 0 step = 0 := by
    by_contra some
    have first := (lt_step_count_iff 0 step positive 0).1 (Nat.pos_of_ne_zero some)
    rw [show Decimal.ofInt ((0 : Nat) : Int) = 0 from rfl, zero_mul] at first
    exact absurd first (lt_irrefl _)
  rw [sample_times_eq 0 step positive, none]
  rfl

theorem sample_times_head (duration step : Decimal) (positive : 0 < step) (nonneg : 0 ≤ duration) :
    (sampleTimes duration step).head? = some 0 := by
  rcases nonneg.eq_or_lt with rfl | durationPositive
  · rw [sample_times_zero step positive]
    rfl
  · have some : 0 < stepCount duration step := by
      rw [lt_step_count_iff duration step positive,
        show Decimal.ofInt ((0 : Nat) : Int) = 0 from rfl, zero_mul]
      exact durationPositive
    obtain ⟨count, countEq⟩ := Nat.exists_eq_add_of_lt some
    have firstTime : Decimal.ofInt ((0 : Nat) : Int) * step = 0 := by
      rw [show Decimal.ofInt ((0 : Nat) : Int) = 0 from rfl, zero_mul]
    simp only [sample_times_eq duration step positive, countEq, Nat.zero_add, List.range_succ_eq_map, List.map_cons,
      List.cons_append, List.head?_cons, firstTime]

theorem sample_times_increasing (duration step : Decimal) (positive : 0 < step) :
    (sampleTimes duration step).Pairwise (· < ·) := by
  rw [sample_times_eq duration step positive, List.pairwise_append]
  refine ⟨?_, List.pairwise_singleton _ _, ?_⟩
  · rw [List.pairwise_map]
    apply List.Pairwise.imp _ List.pairwise_lt_range
    intro first second ordered
    have gap : Decimal.ofInt second =
        Decimal.ofInt first + Decimal.ofInt ((second - first : Nat) : Int) := by
      rw [← of_int_add_nat, Nat.add_sub_cancel' ordered.le]
    have gapPositive : 0 < Decimal.ofInt ((second - first : Nat) : Int) := by
      rw [Decimal.lt_iff_to_rat, Decimal.to_rat_zero, Decimal.to_rat_of_int]
      exact_mod_cast Nat.sub_pos_of_lt ordered
    have gain := mul_pos gapPositive positive
    rw [gap, add_mul]
    linarith
  · intro time member last lastMember
    obtain ⟨index, indexMember, rfl⟩ := List.mem_map.1 member
    rw [List.mem_singleton.1 lastMember]
    exact (lt_step_count_iff duration step positive index).1 (List.mem_range.1 indexMember)

theorem sample_times_last (duration step : Decimal) :
    (sampleTimes duration step).getLast? = some duration := by
  unfold sampleTimes
  rw [List.getLast?_concat]

theorem length_flatten_end (values : List Decimal) : (flattenEnd values).length = values.length := by
  fun_induction flattenEnd values with
  | case1 => rfl
  | case2 => rfl
  | case3 => rfl
  | case4 first second third rest ih =>
      rw [List.length_cons, ih]
      rfl

/-- Sample points are taken at the sample times, under a positive step, one value for each. -/
theorem sample_points_ok (subject : Unit → String) (inner : Signal) (step : Outcome Decimal)
    (interpolation : Interpolation) (points : SamplePoints)
    (sampled : samplePoints subject inner step interpolation = .ok points) :
    ∃ stepValue values, step = .ok stepValue ∧ 0 < stepValue ∧
      points.times = sampleTimes inner.duration stepValue ∧
      points.times.mapM inner.value = .ok values ∧
      points.values = (match interpolation with
        | .linear => values
        | .constant => flattenEnd values) ∧
      points.values.length = points.times.length := by
  unfold samplePoints at sampled
  obtain ⟨stepValue, stepOk, rest⟩ := (Outcome.bind_ok_iff _ _ _).1 sampled
  split_ifs at rest with positive
  rw [Decimal.is_positive_iff] at positive
  obtain ⟨values, valuesOk, last⟩ := (Outcome.bind_ok_iff _ _ _).1 rest
  have length := ((Outcome.mapM_ok_iff _ _ _).1 valuesOk).length_eq
  refine ⟨stepValue, values, stepOk, positive, ?_⟩
  cases interpolation with
  | linear =>
      rw [Outcome.pure_ok_iff] at last
      subst last
      exact ⟨rfl, valuesOk, rfl, length.symm⟩
  | constant =>
      rw [Outcome.pure_ok_iff] at last
      subst last
      exact ⟨rfl, valuesOk, rfl, (length_flatten_end values).trans length.symm⟩

section Breakpoints

open Breakpoints

variable {subject : Unit → String} {inner : Signal} {step : Outcome Decimal}
  {interpolation : Interpolation} {points : SamplePoints}

theorem times_of_samples
    (found : samplePoints subject inner step interpolation = .ok points) :
    times (List.zipWith Breakpoint.mk points.times points.values) = points.times := by
  obtain ⟨_, _, _, _, _, _, _, sameLength⟩ := sample_points_ok _ _ _ _ _ found
  unfold times
  rw [← List.map_uncurry_zip_eq_zipWith, List.map_map]
  exact List.map_fst_zip sameLength.ge

theorem samples_well_formed (nonneg : 0 ≤ inner.duration)
    (found : samplePoints subject inner step interpolation = .ok points) :
    WellFormed (List.zipWith Breakpoint.mk points.times points.values) := by
  obtain ⟨stepValue, _, _, positive, timesSame, _, _, _⟩ := sample_points_ok _ _ _ _ _ found
  have pointTimes := times_of_samples found
  constructor
  · have starts := sample_times_head inner.duration stepValue positive nonneg
    rw [← timesSame, ← pointTimes] at starts
    unfold times at starts
    rw [List.head?_map] at starts
    exact starts
  · have increasing := sample_times_increasing inner.duration stepValue positive
    rw [← timesSame, ← pointTimes] at increasing
    exact List.pairwise_map.1 increasing

theorem duration_of_samples
    (found : samplePoints subject inner step interpolation = .ok points) :
    Breakpoints.duration (List.zipWith Breakpoint.mk points.times points.values) =
      inner.duration := by
  obtain ⟨stepValue, _, _, _, timesSame, _, _, _⟩ := sample_points_ok _ _ _ _ _ found
  rw [duration_eq_last_time, times_of_samples found, timesSame, sample_times_last]
  rfl

end Breakpoints

end Analog.Signal
