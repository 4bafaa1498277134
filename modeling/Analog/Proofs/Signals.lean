import Analog.Proofs.SampleTimes
import Analog.Proofs.WaveformNodes
import Mathlib.Data.List.Induction

/-!
# Signals and durations

A signal has no negative duration and is zero outside it. Signals one after the other take
each time to one of them, which depends only on those that are not empty. The duration of a
waveform is that of its signal, and the one is there exactly when the other is.
-/

set_option autoImplicit false

namespace Analog.Signal

variable {duration time : Decimal} {inside : Decimal → Outcome Decimal}

theorem outside_iff (duration time : Decimal) :
    outside duration time = true ↔ time < 0 ∨ duration < time := by
  simp [outside]

@[simp] theorem duration_within : (within duration inside).duration = duration := rfl

theorem within_inside (nonneg : 0 ≤ time) (reached : time ≤ duration) :
    (within duration inside).value time = inside time := by
  unfold within
  dsimp only
  rw [if_neg (by rw [outside_iff]; simp [not_lt.2 nonneg, not_lt.2 reached])]

theorem within_outside (beyond : time < 0 ∨ duration < time) :
    (within duration inside).value time = .ok 0 := by
  unfold within
  dsimp only
  rw [if_pos ((outside_iff _ _).2 beyond)]

/-- A signal that lasts a while and is zero before and after. -/
structure Bounded (signal : Signal) : Prop where
  nonneg : 0 ≤ signal.duration
  silent : ∀ time, time < 0 ∨ signal.duration < time → signal.value time = .ok 0

theorem within_bounded (nonneg : 0 ≤ duration) : Bounded (within duration inside) :=
  ⟨nonneg, fun _ beyond => within_outside beyond⟩

@[simp] theorem total_duration_nil : totalDuration [] = 0 := rfl

@[simp] theorem total_duration_cons (part : Signal) (rest : List Signal) :
    totalDuration (part :: rest) = part.duration + totalDuration rest := rfl

theorem total_duration_eq_sum (parts : List Signal) :
    totalDuration parts = (parts.map (·.duration)).sum := by
  induction parts with
  | nil => rfl
  | cons part rest ih => rw [total_duration_cons, List.map_cons, List.sum_cons, ih]

@[simp] theorem total_duration_append (before after : List Signal) :
    totalDuration (before ++ after) = totalDuration before + totalDuration after := by
  induction before with
  | nil => simp
  | cons part rest ih => rw [List.cons_append, total_duration_cons, ih, total_duration_cons, add_assoc]

theorem total_duration_nonneg (parts : List Signal) (bounded : ∀ part ∈ parts, Bounded part) :
    0 ≤ totalDuration parts := by
  induction parts with
  | nil => simp
  | cons part rest ih =>
      have first := (bounded part (by simp)).nonneg
      have others := ih fun other member => bounded other (by simp [member])
      rw [total_duration_cons]
      linarith

theorem total_duration_zero_iff (parts : List Signal) (bounded : ∀ part ∈ parts, Bounded part) :
    totalDuration parts = 0 ↔ parts.all (·.duration.isZero) = true := by
  induction parts with
  | nil => simp
  | cons part rest ih =>
      have first := (bounded part (by simp)).nonneg
      have restBounded : ∀ other ∈ rest, Bounded other :=
        fun other member => bounded other (by simp [member])
      have others := total_duration_nonneg rest restBounded
      rw [total_duration_cons, List.all_cons, Bool.and_eq_true, ← ih restBounded,
        Decimal.is_zero_iff]
      constructor
      · intro zero
        constructor <;> linarith
      · rintro ⟨firstZero, restZero⟩
        rw [firstZero, restZero, add_zero]

theorem not_all_empty_of_pos (parts : List Signal) (bounded : ∀ part ∈ parts, Bounded part)
    (positive : 0 < totalDuration parts) : parts.all (·.duration.isZero) = false := by
  rw [← Bool.not_eq_true, ← total_duration_zero_iff parts bounded]
  exact positive.ne'

/-- Before the end of some signals, what follows them does not matter. -/
theorem sequence_value_before (before after : List Signal)
    (bounded : ∀ part ∈ before, Bounded part) (nonneg : 0 ≤ time)
    (early : time < totalDuration before) :
    sequenceValue (before ++ after) time = sequenceValue before time := by
  induction before generalizing time with
  | nil => exact absurd early (not_lt.2 nonneg)
  | cons part rest ih =>
      have restBounded : ∀ other ∈ rest, Bounded other :=
        fun other member => bounded other (by simp [member])
      rw [total_duration_cons] at early
      rw [List.cons_append]
      unfold sequenceValue
      by_cases empty : part.duration.isZero = true
      · rw [if_pos empty, if_pos empty]
        rw [Decimal.is_zero_iff] at empty
        exact ih restBounded nonneg (by linarith)
      rw [if_neg empty, if_neg empty]
      by_cases covered : time < part.duration
      · rw [if_pos covered, if_pos covered]
      · rw [if_neg covered, if_neg covered]
        -- The end of this part is not the end of them all.
        have restPositive : 0 < totalDuration rest := by
          rw [not_lt] at covered
          linarith
        have notAll := not_all_empty_of_pos rest restBounded restPositive
        have notAllAfter : (rest ++ after).all (·.duration.isZero) = false := by
          rw [List.all_append, notAll, Bool.false_and]
        rw [notAll, notAllAfter, Bool.and_false, if_neg (by simp), if_neg (by simp)]
        exact ih restBounded (by linarith) (by linarith)

/-- From the end of some signals on, those that follow take over unless all are empty. -/
theorem sequence_value_after (before after : List Signal)
    (bounded : ∀ part ∈ before, Bounded part) (some : after.all (·.duration.isZero) = false)
    (late : totalDuration before ≤ time) :
    sequenceValue (before ++ after) time = sequenceValue after (time - totalDuration before) := by
  induction before generalizing time with
  | nil => rw [List.nil_append, total_duration_nil, sub_zero]
  | cons part rest ih =>
      have restBounded : ∀ other ∈ rest, Bounded other :=
        fun other member => bounded other (by simp [member])
      have restNonneg := total_duration_nonneg rest restBounded
      rw [total_duration_cons] at late ⊢
      have notAll : (rest ++ after).all (·.duration.isZero) = false := by
        rw [List.all_append, some, Bool.and_false]
      rw [List.cons_append]
      conv_lhs => unfold sequenceValue
      rw [notAll, Bool.and_false, if_neg (c := (false = true)) (by simp)]
      split_ifs with empty covered
      · rw [Decimal.is_zero_iff] at empty
        rw [ih restBounded (by linarith), empty, zero_add]
      · exact absurd covered (by linarith)
      · rw [ih restBounded (by linarith), sub_sub]

theorem sequence_value_all_empty (parts : List Signal)
    (empty : parts.all (·.duration.isZero) = true) (time : Decimal) :
    sequenceValue parts time = .ok 0 := by
  induction parts with
  | nil => rfl
  | cons part rest ih =>
      rw [List.all_cons, Bool.and_eq_true] at empty
      unfold sequenceValue
      rw [if_pos empty.1]
      exact ih empty.2

theorem sequence_value_append_empty (before after : List Signal)
    (empty : after.all (·.duration.isZero) = true) :
    sequenceValue (before ++ after) time = sequenceValue before time := by
  induction before generalizing time with
  | nil => exact sequence_value_all_empty after empty time
  | cons part rest ih =>
      rw [List.cons_append]
      unfold sequenceValue
      rw [List.all_append, empty, Bool.and_true]
      simp only [ih]

theorem sequence_value_single (part : Signal) (positive : 0 < part.duration) (reached : time ≤ part.duration) :
    sequenceValue [part] time = part.value time := by
  unfold sequenceValue
  rw [if_neg (by simpa using positive.ne')]
  split_ifs with covered final
  · rfl
  · rfl
  · have same : time = part.duration := le_antisymm reached (not_lt.1 covered)
    simp [same] at final

theorem concatenate_bounded (parts : List Signal) (bounded : ∀ part ∈ parts, Bounded part) :
    Bounded (concatenate parts) :=
  within_bounded (total_duration_nonneg parts bounded)

theorem between_level (duration value time : Decimal) (notZero : duration ≠ 0) :
    Breakpoints.between 0 value duration value time = .ok value := by
  unfold Breakpoints.between
  rw [sub_self, zero_mul, sub_zero, (Decimal.quotient_ok_iff _ _ _).2 (Decimal.zero_div _ notZero),
    Outcome.ok_bind, add_zero]
  rfl

theorem line_level (duration value : Decimal) :
    line (.ok value) (.ok value) duration = within duration fun _ => .ok value := by
  unfold line
  congr 1
  funext time
  rw [Outcome.ok_bind, Outcome.ok_bind]
  split_ifs with empty
  · rfl
  · exact between_level duration value time (by simpa using empty)

theorem polynomial_value_significant (coefficients : List Decimal) (time : Decimal) :
    polynomialValue (Lowering.significant coefficients) time =
      polynomialValue coefficients time := by
  induction coefficients using List.reverseRecOn with
  | nil => rfl
  | append_singleton earlier last ih =>
      unfold Lowering.significant at ih ⊢
      rw [List.reverse_append, List.reverse_singleton, List.singleton_append, List.dropWhile_cons]
      split_ifs with zero
      · rw [Decimal.is_zero_iff] at zero
        rw [ih, zero]
        unfold polynomialValue
        rw [List.foldr_append, List.foldr_cons, List.foldr_nil, zero_mul, zero_add]
      · rw [List.reverse_cons, List.reverse_reverse]

end Analog.Signal

namespace Analog.Waveform

open Signal

theorem leaf_duration_ok_iff (bindings : ScalarBindings) (duration : Scalar) (value : Decimal) :
    leafDuration bindings duration = .ok value ↔ duration.eval bindings = .ok value ∧ 0 ≤ value := by
  unfold leafDuration
  rw [Outcome.bind_ok_iff]
  constructor
  · rintro ⟨length, evaluated, kept⟩
    split_ifs at kept with negative
    rw [Outcome.pure_ok_iff] at kept
    subst kept
    exact ⟨evaluated, by simpa using negative⟩
  · rintro ⟨evaluated, nonneg⟩
    refine ⟨value, evaluated, ?_⟩
    rw [if_neg (by simpa using nonneg)]
    rfl

theorem slice_length_ok_iff (extent : Decimal) (start stop : Option Decimal) (length : Decimal) :
    sliceLength extent start stop = .ok length ↔
      (0 ≤ start.getD 0 ∧ start.getD 0 ≤ stop.getD extent ∧ stop.getD extent ≤ extent) ∧
        length = stop.getD extent - start.getD 0 := by
  unfold sliceLength
  dsimp only
  split_ifs with one two three four <;> simp at * <;> grind

/-- A slice has bounds exactly when they evaluate and are in order within the extent. -/
theorem slice_bounds_ok_iff (bindings : ScalarBindings) (subject : Unit → String)
    (interval : Interval) (extent lower upper : Decimal) :
    sliceBounds bindings subject interval extent = .ok (lower, upper) ↔
      ∃ start stop, Scalar.evalBound bindings interval.start = .ok start ∧
        Scalar.evalBound bindings interval.stop = .ok stop ∧
        lower = start.getD 0 ∧ upper = stop.getD extent ∧
        0 ≤ lower ∧ lower ≤ upper ∧ upper ≤ extent := by
  unfold sliceBounds
  rw [Outcome.bind_ok_iff]
  constructor
  · rintro ⟨start, startOk, rest⟩
    obtain ⟨stop, stopOk, last⟩ := (Outcome.bind_ok_iff _ _ _).1 rest
    obtain ⟨length, lengthOk, same⟩ := (Outcome.bind_ok_iff _ _ _).1 last
    rw [Outcome.blame_ok_iff, slice_length_ok_iff] at lengthOk
    obtain ⟨⟨nonneg, ordered, bounded⟩, rfl⟩ := lengthOk
    rw [Outcome.pure_ok_iff, Prod.mk.injEq] at same
    obtain ⟨rfl, rfl⟩ := same
    rw [add_sub_cancel]
    exact ⟨start, stop, startOk, stopOk, rfl, rfl, nonneg, ordered, bounded⟩
  · rintro ⟨start, stop, startOk, stopOk, rfl, rfl, nonneg, ordered, bounded⟩
    refine ⟨start, startOk, (Outcome.bind_ok_iff _ _ _).2 ⟨stop, stopOk, ?_⟩⟩
    refine (Outcome.bind_ok_iff _ _ _).2 ⟨stop.getD extent - start.getD 0, ?_, ?_⟩
    · rw [Outcome.blame_ok_iff, slice_length_ok_iff]
      exact ⟨⟨nonneg, ordered, bounded⟩, rfl⟩
    · rw [Outcome.pure_ok_iff, add_sub_cancel]

private theorem leaf_bounded {bindings : ScalarBindings} {length : Scalar} {meaning : Signal}
    {values : Decimal → Decimal → Outcome Decimal}
    (means : (do
      let duration ← leafDuration bindings length
      return within duration (values duration)) = .ok meaning) : Bounded meaning := by
  obtain ⟨duration, lasts, same⟩ := (Outcome.bind_ok_iff _ _ _).1 means
  rw [Outcome.pure_ok_iff] at same
  subst same
  exact within_bounded ((leaf_duration_ok_iff _ _ _).1 lasts).2

variable [Natives]

/-- The meanings of waveforms one after the other, one for each. -/
theorem signals_ok_iff (bindings : ScalarBindings) (parts : List Waveform)
    (meanings : List Signal) :
    signals bindings parts = .ok meanings ↔
      List.Forall₂ (fun part meaning => signal bindings part = .ok meaning) parts meanings := by
  induction parts generalizing meanings with
  | nil => simp [signals, List.forall₂_nil_left_iff, eq_comm]
  | cons part rest ih =>
      unfold signals
      rw [Outcome.bind_ok_iff]
      constructor
      · rintro ⟨meaning, meaningOk, remaining⟩
        obtain ⟨others, othersOk, same⟩ := (Outcome.bind_ok_iff _ _ _).1 remaining
        rw [Outcome.pure_ok_iff] at same
        subst same
        exact List.Forall₂.cons meaningOk ((ih others).1 othersOk)
      · intro each
        cases each with
        | cons meaningOk others =>
            exact ⟨_, meaningOk, (Outcome.bind_ok_iff _ _ _).2 ⟨_, (ih _).2 others, rfl⟩⟩

/-- A waveform has a duration exactly when it has a meaning, and then it is that of the
meaning. -/
theorem duration_eq_map_signal (bindings : ScalarBindings) (waveform : Waveform) :
    duration bindings waveform = Signal.duration <$> signal bindings waveform := by
  induction waveform using Waveform.parts_induction with
  | constant value length =>
      unfold duration signal
      cases leafDuration bindings length <;> rfl
  | ramp start stop length =>
      unfold duration signal
      cases leafDuration bindings length <;> rfl
  | poly coefficients length =>
      unfold duration signal
      cases leafDuration bindings length <;> rfl
  | native name function length parameters =>
      unfold duration signal
      cases leafDuration bindings length <;> rfl
  | negative inner ih =>
      unfold duration signal
      rw [ih]
      cases signal bindings inner <;> rfl
  | add left right leftIh rightIh =>
      unfold duration signal
      rw [leftIh, rightIh]
      cases signal bindings left with
      | error failure => rfl
      | ok leftMeaning => cases signal bindings right <;> rfl
  | scale factor inner ih =>
      unfold duration signal
      rw [ih]
      cases signal bindings inner <;> rfl
  | slice inner interval ih =>
      unfold duration signal
      rw [ih]
      cases signal bindings inner with
      | error failure => rfl
      | ok meaning =>
          change (sliceBounds bindings _ interval meaning.duration >>= _) =
            Signal.duration <$> (sliceBounds bindings _ interval meaning.duration >>= _)
          cases sliceBounds bindings (fun _ => (Waveform.slice inner interval).text) interval
            meaning.duration <;> rfl
  | append parts ih =>
      have total : totalDuration bindings parts =
          Signal.totalDuration <$> signals bindings parts := by
        induction parts with
        | nil => rfl
        | cons part rest restIh =>
            unfold totalDuration signals
            rw [ih part (by simp), restIh fun other member => ih other (by simp [member])]
            cases signal bindings part with
            | error failure => rfl
            | ok meaning => cases signals bindings rest <;> rfl
      unfold duration signal
      rw [total]
      cases signals bindings parts <;> rfl
  | record name inner side ih =>
      unfold duration signal
      exact ih
  | sample inner step interpolation ih =>
      unfold duration signal
      rw [ih]
      cases signal bindings inner <;> rfl
  | smooth inner radius kernel ih =>
      unfold duration signal
      rw [ih]
      cases signal bindings inner <;> rfl
  | aligned inner alignment fill ih =>
      unfold duration signal
      exact ih

theorem duration_of_signal {bindings : ScalarBindings} {waveform : Waveform} {meaning : Signal}
    (means : signal bindings waveform = .ok meaning) :
    duration bindings waveform = .ok meaning.duration := by
  rw [duration_eq_map_signal, means]
  rfl

theorem signal_of_duration {bindings : ScalarBindings} {waveform : Waveform} {length : Decimal}
    (lasts : duration bindings waveform = .ok length) :
    ∃ meaning, signal bindings waveform = .ok meaning ∧ meaning.duration = length := by
  rw [duration_eq_map_signal, Outcome.map_ok_iff] at lasts
  exact lasts

private theorem inner_bounded {bindings : ScalarBindings} {inner : Waveform} {meaning : Signal}
    {values : Signal → Decimal → Outcome Decimal}
    (ih : ∀ meaning, signal bindings inner = .ok meaning → Bounded meaning)
    (means : (do
      let innerMeaning ← signal bindings inner
      return within innerMeaning.duration (values innerMeaning)) = .ok meaning) :
    Bounded meaning := by
  obtain ⟨innerMeaning, innerMeans, same⟩ := (Outcome.bind_ok_iff _ _ _).1 means
  rw [Outcome.pure_ok_iff] at same
  subst same
  exact within_bounded (ih innerMeaning innerMeans).nonneg

theorem signal_bounded (bindings : ScalarBindings) (waveform : Waveform) (meaning : Signal)
    (means : signal bindings waveform = .ok meaning) : Bounded meaning := by
  induction waveform using Waveform.parts_induction generalizing meaning with
  | constant value length => exact leaf_bounded means
  | ramp start stop length => exact leaf_bounded means
  | poly coefficients length => exact leaf_bounded means
  | native name function length parameters => exact leaf_bounded means
  | negative inner ih => exact inner_bounded ih means
  | add left right leftIh rightIh =>
      unfold signal at means
      obtain ⟨leftMeaning, leftMeans, rest⟩ := (Outcome.bind_ok_iff _ _ _).1 means
      obtain ⟨rightMeaning, rightMeans, same⟩ := (Outcome.bind_ok_iff _ _ _).1 rest
      rw [Outcome.pure_ok_iff] at same
      subst same
      exact within_bounded ((leftIh leftMeaning leftMeans).nonneg.trans (le_max_left _ _))
  | scale factor inner ih => exact inner_bounded ih means
  | slice inner interval ih =>
      unfold signal at means
      obtain ⟨innerMeaning, innerMeans, rest⟩ := (Outcome.bind_ok_iff _ _ _).1 means
      obtain ⟨⟨lower, upper⟩, bounds, same⟩ := (Outcome.bind_ok_iff _ _ _).1 rest
      rw [Outcome.pure_ok_iff] at same
      subst same
      obtain ⟨_, _, _, _, _, _, _, ordered, _⟩ := (slice_bounds_ok_iff _ _ _ _ _ _).1 bounds
      exact within_bounded (sub_nonneg.2 ordered)
  | append parts ih =>
      unfold signal at means
      obtain ⟨meanings, allMean, same⟩ := (Outcome.bind_ok_iff _ _ _).1 means
      rw [Outcome.pure_ok_iff] at same
      subst same
      apply concatenate_bounded
      intro part member
      obtain ⟨original, originalMember, partMeans⟩ :=
        Outcome.source_of_mem ((signals_ok_iff _ _ _).1 allMean) member
      exact ih original originalMember part partMeans
  | record name inner side ih => exact ih meaning means
  | sample inner step interpolation ih => exact inner_bounded ih means
  | smooth inner radius kernel ih => exact inner_bounded ih means
  | aligned inner alignment fill ih => exact ih meaning means

theorem signals_bounded {bindings : ScalarBindings} {parts : List Waveform}
    {meanings : List Signal} (means : signals bindings parts = .ok meanings) :
    ∀ meaning ∈ meanings, Bounded meaning := by
  intro meaning member
  obtain ⟨part, _, partMeans⟩ := Outcome.source_of_mem ((signals_ok_iff _ _ _).1 means) member
  exact signal_bounded bindings part meaning partMeans

end Analog.Waveform

namespace Analog.Lowering

/-- A lowered leaf has the same duration as a leaf that is evaluated. -/
theorem leaf_duration_ok_iff (bindings : ScalarBindings) (subject : Unit → String)
    (duration : Scalar) (value : Decimal) :
    leafDuration bindings subject duration = .ok value ↔
      Waveform.leafDuration bindings duration = .ok value := by
  rw [Waveform.leaf_duration_ok_iff]
  unfold leafDuration
  rw [Outcome.bind_ok_iff]
  constructor
  · rintro ⟨length, evaluated, kept⟩
    split_ifs at kept with negative
    rw [Outcome.pure_ok_iff] at kept
    subst kept
    exact ⟨evaluated, by simpa using negative⟩
  · rintro ⟨evaluated, nonneg⟩
    refine ⟨value, evaluated, ?_⟩
    rw [if_neg (by simpa using nonneg)]
    rfl

end Analog.Lowering
