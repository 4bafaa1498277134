import Analog.Proofs.Signals

/-!
# Refinement of signals

A signal refines another if it lasts as long and has every value that the other has; where
the other has none it may have any. All ways of building signals respect refinement, and
signals one after the other may be regrouped under it.
-/

set_option autoImplicit false

namespace Analog.Signal

/-- The result lasts as long and has all values of the given signal. -/
structure Refines (given result : Signal) : Prop where
  lasts : result.duration = given.duration
  values : ∀ time value, given.value time = .ok value → result.value time = .ok value

namespace Refines

variable {first second third given result left right left' right' : Signal}

theorem refl (given : Signal) : Refines given given :=
  ⟨rfl, fun _ _ found => found⟩

theorem trans (one : Refines first second) (two : Refines second third) : Refines first third :=
  ⟨two.lasts.trans one.lasts, fun time value found => two.values time value (one.values time value found)⟩

theorem of_inside {duration : Decimal} {inside inside' : Decimal → Outcome Decimal}
    (values : ∀ time, 0 ≤ time → time ≤ duration → ∀ value, inside time = .ok value →
      inside' time = .ok value) :
    Refines (within duration inside) (within duration inside') := by
  refine ⟨rfl, fun time value found => ?_⟩
  by_cases beyond : time < 0 ∨ duration < time
  · rw [within_outside beyond] at found ⊢
    exact found
  · rw [not_or, not_lt, not_lt] at beyond
    rw [within_inside beyond.1 beyond.2] at found ⊢
    exact values time beyond.1 beyond.2 value found

/-- A bounded signal is refined by one that lasts as long and has its values inside. -/
theorem of_bounded (bounded : Bounded result) {duration : Decimal}
    {inside : Decimal → Outcome Decimal} (lasts : result.duration = duration)
    (values : ∀ time, 0 ≤ time → time ≤ duration → ∀ value, inside time = .ok value →
      result.value time = .ok value) :
    Refines (within duration inside) result := by
  refine ⟨lasts, fun time value found => ?_⟩
  by_cases beyond : time < 0 ∨ duration < time
  · rw [within_outside beyond] at found
    rw [bounded.silent time (by rw [lasts]; exact beyond)]
    exact found
  · rw [not_or, not_lt, not_lt] at beyond
    rw [within_inside beyond.1 beyond.2] at found
    exact values time beyond.1 beyond.2 value found

theorem negate (refines : Refines given result) : Refines given.negate result.negate := by
  unfold Signal.negate
  rw [refines.lasts]
  apply of_inside
  intro time _ _ value found
  obtain ⟨inner, innerOk, same⟩ := (Outcome.bind_ok_iff _ _ _).1 found
  rw [refines.values time inner innerOk]
  exact same

theorem plus (leftRefines : Refines left left') (rightRefines : Refines right right') :
    Refines (left.plus right) (left'.plus right') := by
  unfold Signal.plus
  rw [leftRefines.lasts, rightRefines.lasts]
  apply of_inside
  intro time _ _ value found
  obtain ⟨rightValue, rightOk, rest⟩ := (Outcome.bind_ok_iff _ _ _).1 found
  obtain ⟨leftValue, leftOk, same⟩ := (Outcome.bind_ok_iff _ _ _).1 rest
  rw [rightRefines.values time rightValue rightOk, Outcome.ok_bind,
    leftRefines.values time leftValue leftOk]
  exact same

theorem scaled_by {factor factor' : Outcome Decimal}
    (keeps : ∀ value, factor = .ok value → factor' = .ok value) (refines : Refines given result) :
    Refines (given.scaled factor) (result.scaled factor') := by
  unfold Signal.scaled
  rw [refines.lasts]
  apply of_inside
  intro time _ _ value found
  obtain ⟨factorValue, factorOk, rest⟩ := (Outcome.bind_ok_iff _ _ _).1 found
  obtain ⟨inner, innerOk, same⟩ := (Outcome.bind_ok_iff _ _ _).1 rest
  rw [keeps factorValue factorOk, Outcome.ok_bind, refines.values time inner innerOk]
  exact same

theorem scaled (factor : Outcome Decimal) (refines : Refines given result) :
    Refines (given.scaled factor) (result.scaled factor) :=
  scaled_by (fun _ found => found) refines

theorem cut (start stop : Decimal) (refines : Refines given result) :
    Refines (given.cut start stop) (result.cut start stop) :=
  of_inside fun time _ _ value found => refines.values (time + start) value found

theorem sample_points {subject subject' : Unit → String} {step step' : Outcome Decimal}
    {interpolation : Interpolation} {points : SamplePoints}
    (keeps : ∀ value, step = .ok value → step' = .ok value) (refines : Refines given result)
    (found : samplePoints subject given step interpolation = .ok points) :
    samplePoints subject' result step' interpolation = .ok points := by
  unfold samplePoints at found ⊢
  obtain ⟨stepValue, stepOk, rest⟩ := (Outcome.bind_ok_iff _ _ _).1 found
  split_ifs at rest with positive
  obtain ⟨values, valuesOk, last⟩ := (Outcome.bind_ok_iff _ _ _).1 rest
  rw [Outcome.mapM_ok_iff] at valuesOk
  have kept : (sampleTimes given.duration stepValue).mapM result.value = .ok values :=
    (Outcome.mapM_ok_iff _ _ _).2 (valuesOk.imp fun moment found => refines.values moment found)
  rw [keeps stepValue stepOk, Outcome.ok_bind, if_pos positive, refines.lasts]
  dsimp only
  rw [kept]
  exact last

theorem sampled_by {subject subject' : Unit → String} {step step' : Outcome Decimal}
    (interpolation : Interpolation) (keeps : ∀ value, step = .ok value → step' = .ok value)
    (refines : Refines given result) :
    Refines (Signal.sampled interpolation (samplePoints subject given step interpolation)
        given.duration)
      (Signal.sampled interpolation (samplePoints subject' result step' interpolation)
        result.duration) := by
  unfold Signal.sampled
  rw [refines.lasts]
  apply of_inside
  intro time _ _ value found
  obtain ⟨points, pointsOk, interpolated⟩ := (Outcome.bind_ok_iff _ _ _).1 found
  rw [refines.sample_points keeps pointsOk]
  exact interpolated

theorem sampled {subject subject' : Unit → String} (step : Outcome Decimal)
    (interpolation : Interpolation) (refines : Refines given result) :
    Refines (Signal.sampled interpolation (samplePoints subject given step interpolation)
        given.duration)
      (Signal.sampled interpolation (samplePoints subject' result step interpolation)
        result.duration) :=
  sampled_by interpolation (fun _ found => found) refines

theorem weighted {kernel : Kernel} {radius time : Decimal} {mean : Smoothing.Mean}
    (refines : Refines given result)
    (found : Smoothing.meanAt kernel radius given.duration given.value time = .ok mean) :
    Smoothing.meanAt kernel radius given.duration result.value time = .ok mean := by
  unfold Smoothing.meanAt at found ⊢
  obtain ⟨step, stepOk, rest⟩ := (Outcome.bind_ok_iff _ _ _).1 found
  obtain ⟨first, firstOk, rest⟩ := (Outcome.bind_ok_iff _ _ _).1 rest
  obtain ⟨last, lastOk, meanOk⟩ := (Outcome.bind_ok_iff _ _ _).1 rest
  rw [stepOk, Outcome.ok_bind]
  dsimp only
  rw [firstOk, Outcome.ok_bind, lastOk, Outcome.ok_bind]
  apply Outcome.foldlM_ok_mono _ _ _ _ meanOk
  intro before index after stepped
  dsimp only at stepped ⊢
  split_ifs at stepped ⊢ with negligible
  · exact stepped
  · obtain ⟨height, heightOk, same⟩ := (Outcome.bind_ok_iff _ _ _).1 stepped
    rw [refines.values _ height heightOk]
    exact same

theorem smoothing {kernel : Kernel} {radius time value : Decimal} (refines : Refines given result)
    (found : Smoothing.valueAt kernel radius given.duration given.value time = .ok value) :
    Smoothing.valueAt kernel radius given.duration result.value time = .ok value := by
  unfold Smoothing.valueAt at found ⊢
  obtain ⟨mean, meanOk, rest⟩ := (Outcome.bind_ok_iff _ _ _).1 found
  rw [refines.weighted meanOk, Outcome.ok_bind]
  split_ifs at rest ⊢ with none
  · exact refines.values time value rest
  · exact rest

theorem smoothed_by {radius radius' : Outcome Decimal} (kernel : Kernel)
    (keeps : ∀ value, radius = .ok value → radius' = .ok value) (refines : Refines given result) :
    Refines (Signal.smoothed kernel radius given) (Signal.smoothed kernel radius' result) := by
  unfold Signal.smoothed
  rw [refines.lasts]
  apply of_inside
  intro time _ _ value found
  obtain ⟨radiusValue, radiusOk, rest⟩ := (Outcome.bind_ok_iff _ _ _).1 found
  rw [keeps radiusValue radiusOk, Outcome.ok_bind]
  split_ifs at rest ⊢ with positive
  · exact refines.smoothing rest
  · exact refines.values time value rest

theorem smoothed (kernel : Kernel) (radius : Outcome Decimal) (refines : Refines given result) :
    Refines (Signal.smoothed kernel radius given) (Signal.smoothed kernel radius result) :=
  smoothed_by kernel (fun _ found => found) refines

end Refines

/-- Signals that have the same values at the same times. -/
structure Alike (left right : Signal) : Prop where
  forth : Refines left right
  back : Refines right left

theorem alike_of_eq {left right : Signal} (same : left = right) : Alike left right := by
  rw [same]
  exact ⟨Refines.refl _, Refines.refl _⟩

section Concatenate

variable {before after middle middle' parts parts' : List Signal} {part part' : Signal}

theorem total_duration_of_refines (refines : Refines (concatenate middle) (concatenate middle')) :
    totalDuration middle' = totalDuration middle :=
  refines.lasts

theorem sequence_value_of_refines (refines : Refines (concatenate middle) (concatenate middle'))
    {time value : Decimal} (nonneg : 0 ≤ time) (reached : time ≤ totalDuration middle)
    (found : sequenceValue middle time = .ok value) : sequenceValue middle' time = .ok value := by
  have kept := refines.values time value
  unfold concatenate at kept
  rw [within_inside nonneg reached,
    within_inside nonneg (by rw [total_duration_of_refines refines]; exact reached)] at kept
  exact kept found

/-- Signals in the middle may be replaced by others that refine them. -/
theorem concatenate_refines_middle (beforeBounded : ∀ part ∈ before, Bounded part)
    (middleBounded : ∀ part ∈ middle, Bounded part)
    (middleBounded' : ∀ part ∈ middle', Bounded part) (afterBounded : ∀ part ∈ after, Bounded part)
    (refines : Refines (concatenate middle) (concatenate middle')) :
    Refines (concatenate (before ++ (middle ++ after))) (concatenate (before ++ (middle' ++ after))) := by
  have sameTotal := total_duration_of_refines refines
  have total : totalDuration (before ++ (middle' ++ after)) =
      totalDuration (before ++ (middle ++ after)) := by
    simp only [total_duration_append, sameTotal]
  have joinedBounded : ∀ list : List Signal, (∀ part ∈ list, Bounded part) →
      ∀ part ∈ list ++ after, Bounded part := by
    intro list bounded part member
    rcases List.mem_append.1 member with early | late
    · exact bounded part early
    · exact afterBounded part late
  unfold concatenate
  rw [total]
  apply Refines.of_inside
  intro time nonneg reached value found
  rw [total_duration_append, total_duration_append] at reached
  by_cases early : time < totalDuration before
  · rw [sequence_value_before before _ beforeBounded nonneg early] at found ⊢
    exact found
  rw [not_lt] at early
  cases empty : (middle ++ after).all (·.duration.isZero) with
  | true =>
      have empty' : (middle' ++ after).all (·.duration.isZero) = true := by
        rw [← total_duration_zero_iff _ (joinedBounded _ middleBounded)] at empty
        rw [← total_duration_zero_iff _ (joinedBounded _ middleBounded'), total_duration_append,
          sameTotal, ← total_duration_append, empty]
      rw [sequence_value_append_empty before _ empty] at found
      rw [sequence_value_append_empty before _ empty']
      exact found
  | false =>
      have empty' : (middle' ++ after).all (·.duration.isZero) = false := by
        rw [← Bool.not_eq_true, ← total_duration_zero_iff _ (joinedBounded _ middleBounded)]
          at empty
        rw [← Bool.not_eq_true, ← total_duration_zero_iff _ (joinedBounded _ middleBounded'),
          total_duration_append, sameTotal, ← total_duration_append]
        exact empty
      rw [sequence_value_after before _ beforeBounded empty early] at found
      rw [sequence_value_after before _ beforeBounded empty' early]
      -- From here on only what comes after the first signals matters.
      have laterNonneg : 0 ≤ time - totalDuration before := sub_nonneg.2 early
      by_cases inMiddle : time - totalDuration before < totalDuration middle
      · rw [sequence_value_before middle after middleBounded laterNonneg inMiddle] at found
        rw [sequence_value_before middle' after middleBounded' laterNonneg
          (by rw [sameTotal]; exact inMiddle)]
        exact sequence_value_of_refines refines laterNonneg inMiddle.le found
      rw [not_lt] at inMiddle
      cases afterEmpty : after.all (·.duration.isZero) with
      | true =>
          have afterZero := (total_duration_zero_iff after afterBounded).2 afterEmpty
          rw [sequence_value_append_empty middle after afterEmpty] at found
          rw [sequence_value_append_empty middle' after afterEmpty]
          exact sequence_value_of_refines refines laterNonneg (by linarith) found
      | false =>
          rw [sequence_value_after middle after middleBounded afterEmpty inMiddle] at found
          rw [sequence_value_after middle' after middleBounded' afterEmpty
            (by rw [sameTotal]; exact inMiddle), sameTotal]
          exact found

theorem none_bounded : ∀ part ∈ ([] : List Signal), Bounded part := by
  simp

theorem concatenate_refines_first (middleBounded : ∀ part ∈ middle, Bounded part)
    (middleBounded' : ∀ part ∈ middle', Bounded part) (afterBounded : ∀ part ∈ after, Bounded part)
    (refines : Refines (concatenate middle) (concatenate middle')) :
    Refines (concatenate (middle ++ after)) (concatenate (middle' ++ after)) :=
  concatenate_refines_middle none_bounded middleBounded middleBounded' afterBounded refines

theorem concatenate_refines_last (beforeBounded : ∀ part ∈ before, Bounded part)
    (middleBounded : ∀ part ∈ middle, Bounded part)
    (middleBounded' : ∀ part ∈ middle', Bounded part)
    (refines : Refines (concatenate middle) (concatenate middle')) :
    Refines (concatenate (before ++ middle)) (concatenate (before ++ middle')) := by
  have replaced := concatenate_refines_middle beforeBounded middleBounded middleBounded'
    none_bounded refines
  rwa [List.append_nil, List.append_nil] at replaced

theorem mem_single_bounded (bounded : Bounded part) : ∀ other ∈ [part], Bounded other := by
  intro other member
  rw [List.mem_singleton.1 member]
  exact bounded

theorem sequence_value_empty (empty : part.duration = 0) (time : Decimal) :
    sequenceValue [part] time = .ok 0 :=
  sequence_value_all_empty [part] (by simp [empty]) time

theorem empty_refines (empty : part.duration = 0) :
    Refines (concatenate [part]) (concatenate []) := by
  unfold concatenate
  rw [show totalDuration [part] = totalDuration [] by simp [empty]]
  apply Refines.of_inside
  intro time _ _ value found
  rw [sequence_value_empty empty] at found
  exact found

theorem single_refines (refines : Refines part part') :
    Refines (concatenate [part]) (concatenate [part']) := by
  unfold concatenate
  rw [show totalDuration [part'] = totalDuration [part] by simp [refines.lasts]]
  apply Refines.of_inside
  intro time nonneg reached value found
  rw [total_duration_cons, total_duration_nil, add_zero] at reached
  rcases eq_or_ne part.duration 0 with empty | some
  · rw [sequence_value_empty empty] at found
    rw [sequence_value_empty (refines.lasts.trans empty)]
    exact found
  · have positive : 0 < part.duration := lt_of_le_of_ne (nonneg.trans reached) (Ne.symm some)
    rw [sequence_value_single part positive reached] at found
    rw [sequence_value_single part' (by rw [refines.lasts]; exact positive)
      (by rw [refines.lasts]; exact reached)]
    exact refines.values time value found

theorem concatenate_single_refines (bounded : Bounded part) (positive : 0 < part.duration) :
    Refines (concatenate [part]) part := by
  apply Refines.of_bounded bounded (by simp)
  intro time _ reached value found
  rw [total_duration_cons, total_duration_nil, add_zero] at reached
  rw [sequence_value_single part positive reached] at found
  exact found

theorem concatenate_refines (refine : List.Forall₂ Refines parts parts')
    (bounded : ∀ part ∈ parts, Bounded part) (bounded' : ∀ part ∈ parts', Bounded part) :
    Refines (concatenate parts) (concatenate parts') := by
  induction refine with
  | nil => exact Refines.refl _
  | @cons first first' rest rest' refines _ ih =>
      have firstBounded := mem_single_bounded (bounded first (by simp))
      have firstBounded' := mem_single_bounded (bounded' first' (by simp))
      have restBounded : ∀ part ∈ rest, Bounded part :=
        fun part member => bounded part (by simp [member])
      have restBounded' : ∀ part ∈ rest', Bounded part :=
        fun part member => bounded' part (by simp [member])
      have firstReplaced := concatenate_refines_first firstBounded firstBounded' restBounded
        (single_refines refines)
      exact firstReplaced.trans (concatenate_refines_last firstBounded' restBounded restBounded'
        (ih restBounded restBounded'))

/-- Signals inside others that come one after the other may be spliced in. -/
theorem splice_refines (bounded : ∀ part ∈ parts, Bounded part) :
    Refines (concatenate [concatenate parts]) (concatenate parts) := by
  have joinedBounded := concatenate_bounded parts bounded
  rcases eq_or_ne (totalDuration parts) 0 with empty | some
  · have zero : (concatenate parts).duration = 0 := empty
    have allEmpty := (total_duration_zero_iff parts bounded).1 empty
    refine (empty_refines zero).trans ?_
    unfold concatenate
    rw [empty]
    apply Refines.of_inside
    intro time _ _ value found
    rw [sequence_value_all_empty parts allEmpty]
    exact found
  · exact concatenate_single_refines joinedBounded
      (lt_of_le_of_ne (total_duration_nonneg parts bounded) (Ne.symm some))

theorem sequence_value_constant {value : Decimal} (parts : List Signal)
    (bounded : ∀ part ∈ parts, Bounded part)
    (steady : ∀ part ∈ parts, ∀ time, 0 ≤ time → time ≤ part.duration → part.value time = .ok value)
    {time : Decimal} (positive : 0 < totalDuration parts) (nonneg : 0 ≤ time)
    (reached : time ≤ totalDuration parts) : sequenceValue parts time = .ok value := by
  induction parts generalizing time with
  | nil => exact absurd positive (lt_irrefl 0)
  | cons first rest ih =>
      have restBounded : ∀ part ∈ rest, Bounded part :=
        fun part member => bounded part (by simp [member])
      have restSteady : ∀ part ∈ rest, ∀ time, 0 ≤ time → time ≤ part.duration →
          part.value time = .ok value :=
        fun part member => steady part (by simp [member])
      have restNonneg := total_duration_nonneg rest restBounded
      rw [total_duration_cons] at positive reached
      unfold sequenceValue
      split_ifs with empty covered final
      · rw [Decimal.is_zero_iff] at empty
        exact ih restBounded restSteady (by linarith) nonneg (by linarith)
      · exact steady first (by simp) time nonneg covered.le
      · rw [Bool.and_eq_true, decide_eq_true_eq] at final
        exact steady first (by simp) time nonneg final.1.le
      · rw [not_lt] at covered
        have restPositive : 0 < totalDuration rest := by
          apply lt_of_le_of_ne restNonneg
          intro zero
          -- Without the rest this would be the end of the last part.
          have allEmpty := (total_duration_zero_iff rest restBounded).1 zero.symm
          have ended : time = first.duration := by linarith
          simp [ended, allEmpty] at final
        exact ih restBounded restSteady restPositive (by linarith) (by linarith)

theorem merge_refines {first second value : Decimal} (firstNonneg : 0 ≤ first)
    (secondNonneg : 0 ≤ second) :
    Refines (concatenate [within first fun _ => .ok value, within second fun _ => .ok value])
      (concatenate [within (first + second) fun _ => .ok value]) := by
  have bounded : ∀ duration : Decimal, 0 ≤ duration →
      Bounded (within duration fun _ => .ok value) := fun _ nonneg => within_bounded nonneg
  have steady : ∀ duration time : Decimal, 0 ≤ time → time ≤ duration →
      (within duration fun _ => .ok value).value time = .ok value :=
    fun _ _ nonneg reached => within_inside nonneg reached
  have total : totalDuration [within (first + second) fun _ => .ok value] =
      totalDuration [within first fun _ => .ok value, within second fun _ => .ok value] := by
    simp [within]
  have pairBounded : ∀ part ∈ [within first fun _ => .ok value, within second fun _ => .ok value],
      Bounded part := by
    simp [bounded first firstNonneg, bounded second secondNonneg]
  have joinedBounded := mem_single_bounded (bounded (first + second) (by linarith))
  unfold concatenate
  rw [total]
  apply Refines.of_inside
  intro time nonneg reached found valueFound
  rcases (total_duration_nonneg _ pairBounded).eq_or_lt with empty | positive
  · have allEmpty := (total_duration_zero_iff _ pairBounded).1 empty.symm
    have zero : (within (first + second) fun _ => .ok value).duration = 0 := by
      rw [← empty] at total
      simpa using total
    rw [sequence_value_all_empty _ allEmpty] at valueFound
    rw [sequence_value_empty zero]
    exact valueFound
  · rw [sequence_value_constant _ pairBounded (by simpa using ⟨steady first, steady second⟩)
      positive nonneg reached] at valueFound
    rw [sequence_value_constant _ joinedBounded (by simpa using steady (first + second))
      (by rw [total]; exact positive) nonneg (by rw [total]; exact reached)]
    exact valueFound

end Concatenate

end Analog.Signal
