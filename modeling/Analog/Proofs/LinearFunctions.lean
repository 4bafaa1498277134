import Analog.Proofs.SampleTimes
import Analog.Series.Lowering

/-!
# Linear series and their ends

A series spans a duration from one value to another. Sums, slices and sequences of series
succeed under conditions on their ends alone, and span what the ends of their operands
determine. At its breakpoints a series has exactly the values it is given there; elsewhere
its values are rounded.
-/

set_option autoImplicit false

namespace Analog.LinearSeries

open Breakpoints

/-- A well-formed series of a duration with its first and its last value. -/
structure Spans (series : LinearSeries) (duration first last : Decimal) : Prop where
  formed : WellFormed series.points
  lasts : series.duration = duration
  startPoint : ⟨0, first⟩ ∈ series.points
  stopPoint : ⟨duration, last⟩ ∈ series.points

variable {series left right part : LinearSeries} {duration first last : Decimal}

theorem eval_of_mem (formed : WellFormed series.points) {point : Breakpoint}
    (member : point ∈ series.points) : series.eval point.time = point.value := by
  have nonneg := formed.time_nonneg member
  have reached : point.time ≤ series.duration := formed.time_le_duration member
  obtain ⟨current, found, holds⟩ := holds_segment series.points formed point.time nonneg
  have itself : Holds series.points point.time point :=
    ⟨member, le_rfl, fun _ _ notLater => notLater⟩
  rw [holds.unique formed itself] at found
  unfold eval
  rw [if_neg (by simpa using ⟨nonneg, reached⟩)]
  dsimp only
  rw [found]
  obtain ⟨inside, pointAt⟩ := List.getElem?_eq_some_iff.1 found
  cases next : series.points[segment (times series.points) point.time + 1]? with
  | none =>
      have isLast : segment (times series.points) point.time = series.points.length - 1 := by
        rw [List.getElem?_eq_none_iff] at next
        omega
      rw [List.getLast?_eq_getElem?, ← isLast, found]
      rfl
  | some following =>
      obtain ⟨nextInside, followingAt⟩ := List.getElem?_eq_some_iff.1 next
      have ordered := List.pairwise_iff_getElem.1 formed.increasing _ _ inside nextInside
        (Nat.lt_succ_self _)
      rw [pointAt, followingAt] at ordered
      change onLine point following point.time = point.value
      unfold onLine
      rw [sub_self, mul_zero, Decimal.zero_div _ (sub_pos.2 ordered).ne', Option.getD_some,
        add_zero]

theorem Spans.eval_start (spans : Spans series duration first last) : series.eval 0 = first :=
  eval_of_mem spans.formed spans.startPoint

theorem Spans.eval_stop (spans : Spans series duration first last) :
    series.eval duration = last :=
  eval_of_mem spans.formed spans.stopPoint

theorem Spans.nonneg (spans : Spans series duration first last) : 0 ≤ duration := by
  rw [← spans.lasts]
  exact spans.formed.duration_nonneg

theorem Spans.split_first (spans : Spans series duration first last) :
    ∃ rest, series.points = ⟨0, first⟩ :: rest := by
  obtain ⟨value, rest, same⟩ := spans.formed.split_first
  have head : (⟨0, value⟩ : Breakpoint) ∈ series.points := by simp [same]
  rw [spans.formed.eq_of_time_eq head spans.startPoint rfl] at same
  exact ⟨rest, same⟩

theorem Spans.split_last (spans : Spans series duration first last) :
    ∃ before, series.points = before ++ [⟨duration, last⟩] := by
  obtain ⟨before, final, same, finalTime⟩ := spans.formed.split_last
  have member : final ∈ series.points := by simp [same]
  have sameTime : final.time = duration := finalTime.trans spans.lasts
  rw [spans.formed.eq_of_time_eq member spans.stopPoint sameTime] at same
  exact ⟨before, same⟩

theorem Spans.own (spans : Spans series duration first last) :
    Spans series duration (series.eval 0) (series.eval series.duration) := by
  rw [spans.lasts, spans.eval_start, spans.eval_stop]
  exact spans

theorem line_spans (nonneg : 0 ≤ duration) :
    Spans (line duration first last) duration first (if duration = 0 then first else last) := by
  unfold line
  split_ifs with empty same different
  · exact ⟨⟨rfl, by simp⟩, same.symm, by simp, by simp [same]⟩
  · exact absurd ((Decimal.is_zero_iff _).1 empty) same
  · exact absurd ((Decimal.is_zero_iff _).2 different) empty
  · have positive : 0 < duration := lt_of_le_of_ne nonneg (Ne.symm different)
    exact ⟨⟨rfl, by simpa using positive⟩, rfl, by simp, by simp⟩

theorem map_spans (f : Decimal → Decimal) (spans : Spans series duration first last) :
    Spans (series.map f) duration (f first) (f last) := by
  have sameTimes : times (series.map f).points = times series.points := by
    simp [map, mapValues, times, Function.comp_def]
  refine ⟨well_formed_of_times sameTimes.symm spans.formed, ?_, ?_, ?_⟩
  · rw [LinearSeries.duration, duration_eq_last_time, sameTimes, ← duration_eq_last_time]
    exact spans.lasts
  · exact List.mem_map.2 ⟨_, spans.startPoint, rfl⟩
  · exact List.mem_map.2 ⟨_, spans.stopPoint, rfl⟩

section Sums

variable {duration' first' last' : Decimal}

/-- A sum succeeds exactly when the operand that ends first ends at zero. -/
theorem plus_ok_iff (leftSpans : Spans left duration first last)
    (rightSpans : Spans right duration' first' last') (sum : LinearSeries) :
    left.plus right = .ok sum ↔
      ((duration < duration' → last = 0) ∧ (duration' < duration → last' = 0)) ∧
        sum = ⟨merged left.points right.points fun time => left.eval time + right.eval time⟩ := by
  obtain ⟨leftBefore, leftSame⟩ := leftSpans.split_last
  obtain ⟨rightBefore, rightSame⟩ := rightSpans.split_last
  have leftLast : left.points.getLast? = some ⟨duration, last⟩ := by simp [leftSame]
  have rightLast : right.points.getLast? = some ⟨duration', last'⟩ := by simp [rightSame]
  unfold plus dropout?
  rw [leftSpans.lasts, rightSpans.lasts]
  rcases lt_trichotomy duration duration' with shorter | same | longer
  · rw [if_pos shorter, leftLast]
    simp only [shorter, shorter.not_gt, forall_const, false_imp_iff, and_true, Option.filter_some]
    by_cases zero : last = 0
    · simpa [zero, merged] using eq_comm
    · simp [zero]
  · subst same
    simpa [merged] using eq_comm
  · rw [if_neg longer.not_gt, if_pos longer, rightLast]
    simp only [longer, longer.not_gt, forall_const, false_imp_iff, true_and, Option.filter_some]
    by_cases zero : last' = 0
    · simpa [zero, merged] using eq_comm
    · simp [zero]

theorem eval_after_end {time : Decimal} (late : series.duration < time) : series.eval time = 0 := by
  unfold eval
  rw [if_pos (by simp [late])]

/-- The sum spans the longer duration; where one operand has ended the other one counts alone. -/
theorem plus_spans (leftSpans : Spans left duration first last)
    (rightSpans : Spans right duration' first' last') :
    Spans ⟨merged left.points right.points fun time => left.eval time + right.eval time⟩
      (max duration duration') (first + first')
      (if duration < duration' then last' else if duration' < duration then last
        else last + last') := by
  have durationMax := duration_merged leftSpans.formed rightSpans.formed
    fun time => left.eval time + right.eval time
  have lasts : Breakpoints.duration (merged left.points right.points fun time =>
      left.eval time + right.eval time) = max duration duration' := by
    rw [durationMax, ← leftSpans.lasts, ← rightSpans.lasts]
    rfl
  refine ⟨merged_well_formed leftSpans.formed rightSpans.formed _, lasts, ?_, ?_⟩
  · refine List.mem_map.2 ⟨0, (mem_union _ _ _).2 (Or.inl leftSpans.formed.zero_mem_times), ?_⟩
    dsimp only
    rw [leftSpans.eval_start, rightSpans.eval_start]
  · refine List.mem_map.2 ⟨max duration duration', ?_, ?_⟩
    · have member := (merged_well_formed leftSpans.formed rightSpans.formed fun time =>
        left.eval time + right.eval time).duration_mem_times
      rwa [lasts, times_merged] at member
    · dsimp only
      rcases lt_trichotomy duration duration' with shorter | same | longer
      · rw [max_eq_right shorter.le, if_pos shorter, rightSpans.eval_stop,
          eval_after_end (by rw [leftSpans.lasts]; exact shorter), zero_add]
      · subst same
        rw [max_self, if_neg (lt_irrefl _), if_neg (lt_irrefl _), leftSpans.eval_stop,
          rightSpans.eval_stop]
      · rw [max_eq_left longer.le, if_neg longer.not_gt, if_pos longer, leftSpans.eval_stop,
          eval_after_end (by rw [rightSpans.lasts]; exact longer), add_zero]

end Sums

theorem slice_ok_iff (start stop : Decimal) :
    series.slice start stop = .ok part ↔
      (0 ≤ start ∧ start ≤ stop ∧ stop ≤ series.duration) ∧
        part = ⟨cutOut series.points start stop (series.eval start) (series.eval stop)⟩ := by
  unfold slice cutOut
  split_ifs with valid <;> simp [validCut] at valid <;> grind

theorem slice_spans (formed : WellFormed series.points) {start stop : Decimal}
    (sliced : series.slice start stop = .ok part) :
    Spans part (stop - start) (series.eval start) (series.eval stop) := by
  obtain ⟨⟨_, ordered, _⟩, rfl⟩ := (slice_ok_iff start stop).1 sliced
  refine ⟨cut_out_well_formed formed _ _ _ _, duration_cut_out formed ordered _ _, ?_, ?_⟩
  · exact (mem_cut_out formed _ _ _ _ _).2 (Or.inl rfl)
  · rcases ordered.eq_or_lt with rfl | proper
    · rw [sub_self]
      exact (mem_cut_out formed _ _ _ _ _).2 (Or.inl rfl)
    · exact (mem_cut_out formed _ _ _ _ _).2 (Or.inr (Or.inr ⟨proper, rfl⟩))

section Sequences

variable {duration' first' last' : Decimal}

/-- One series follows another exactly when it starts where the other ends. -/
theorem append_ok_iff (leftSpans : Spans left duration first last)
    (rightSpans : Spans right duration' first' last') (whole : LinearSeries) :
    left.append right = .ok whole ↔
      last = first' ∧ whole = ⟨joined left.points right.points⟩ := by
  obtain ⟨before, leftSame⟩ := leftSpans.split_last
  obtain ⟨rest, rightSame⟩ := rightSpans.split_first
  have sameDuration : Breakpoints.duration left.points = duration := leftSpans.lasts
  unfold append joined
  rw [sameDuration, leftSame, rightSame]
  simp only [List.getLast?_concat, List.dropLast_concat, List.map_cons, Breakpoint.shift, zero_add]
  by_cases continuous : last = first'
  · subst continuous
    simp [eq_comm]
  · simp [continuous]

theorem append_spans (leftSpans : Spans left duration first last)
    (rightSpans : Spans right duration' first' last') (positive : 0 < duration) :
    Spans ⟨joined left.points right.points⟩ (duration + duration') first last' := by
  have leftDuration : Breakpoints.duration left.points = duration := leftSpans.lasts
  have rightDuration : Breakpoints.duration right.points = duration' := rightSpans.lasts
  refine ⟨joined_well_formed leftSpans.formed rightSpans.formed, ?_, ?_, ?_⟩
  · rw [LinearSeries.duration, duration_joined rightSpans.formed, leftDuration, rightDuration]
  · refine List.mem_append.2 (Or.inl (mem_of_mem_of_time_lt leftSpans.formed
      leftSpans.startPoint ?_))
    rw [leftDuration]
    exact positive
  · refine List.mem_append.2 (Or.inr (List.mem_map.2 ⟨_, rightSpans.stopPoint, ?_⟩))
    rw [leftDuration, Breakpoint.shift, add_comm]

theorem concatenate_cons (joined part : LinearSeries) (rest : List (Option LinearSeries)) :
    concatenate (some joined) (some part :: rest) =
      if part.duration.isZero then concatenate (some joined) rest
      else if joined.duration.isZero then concatenate (some part) rest
      else (do
        let longer ← joined.append part
        concatenate (some longer) rest) :=
  rfl

theorem concatenate_some (joined : LinearSeries) (parts : List LinearSeries)
    {lowered : Option LinearSeries}
    (joins : concatenate (some joined) (parts.map some) = .ok lowered) :
    ∃ whole, lowered = some whole := by
  induction parts generalizing joined with
  | nil =>
      rw [List.map_nil, concatenate, Except.ok.injEq] at joins
      exact ⟨joined, joins.symm⟩
  | cons part rest ih =>
      rw [List.map_cons, concatenate_cons] at joins
      split_ifs at joins
      · exact ih joined joins
      · exact ih part joins
      · obtain ⟨longer, _, joins⟩ := (Outcome.bind_ok_iff _ _ _).1 joins
        exact ih longer joins

/-- Parts joined from left to right. What is joined so far spans the parts so far. -/
theorem concatenate_spans {parts : List LinearSeries} {durations : List Decimal}
    {joined whole : LinearSeries}
    (each : List.Forall₂ (fun part length => ∃ start stop, Spans part length start stop) parts
      durations)
    (spans : Spans joined duration first last)
    (joins : concatenate (some joined) (parts.map some) = .ok (some whole)) :
    ∃ first last, Spans whole (duration + durations.sum) first last := by
  induction each generalizing joined duration first last with
  | nil =>
      rw [List.map_nil, concatenate, Except.ok.injEq, Option.some.injEq] at joins
      subst joins
      rw [List.sum_nil, add_zero]
      exact ⟨first, last, spans⟩
  | @cons part length parts durations partSpans _ ih =>
      obtain ⟨start, stop, partSpans⟩ := partSpans
      rw [List.map_cons, concatenate_cons, partSpans.lasts, spans.lasts] at joins
      rw [List.sum_cons, ← add_assoc]
      split_ifs at joins with partEmpty joinedEmpty
      · rw [(Decimal.is_zero_iff _).1 partEmpty, add_zero]
        exact ih spans joins
      · rw [(Decimal.is_zero_iff _).1 joinedEmpty, zero_add]
        exact ih partSpans joins
      · obtain ⟨longer, appended, joins⟩ := (Outcome.bind_ok_iff _ _ _).1 joins
        obtain ⟨_, rfl⟩ := (append_ok_iff spans partSpans longer).1 appended
        have notEmpty : duration ≠ 0 := by simpa using joinedEmpty
        exact ih (append_spans spans partSpans (lt_of_le_of_ne spans.nonneg notEmpty.symm)) joins

end Sequences

theorem mem_samples {times values : List Decimal} {value : Decimal → Outcome Decimal}
    (each : List.Forall₂ (fun time found => value time = .ok found) times values) {time : Decimal}
    (member : time ∈ times) :
    ∃ found, value time = .ok found ∧ ⟨time, found⟩ ∈ List.zipWith Breakpoint.mk times values := by
  induction each with
  | nil => exact absurd member List.not_mem_nil
  | cons valueOk _ ih =>
      rcases List.mem_cons.1 member with rfl | later
      · exact ⟨_, valueOk, by simp⟩
      · obtain ⟨found, foundOk, foundMember⟩ := ih later
        exact ⟨found, foundOk, by simp [foundMember]⟩

/-- A sampled signal spans its duration, between its own values at both ends. -/
theorem samples_span {subject : Unit → String} {inner : Signal} {step : Outcome Decimal}
    {points : SamplePoints} (nonneg : 0 ≤ inner.duration)
    (found : Signal.samplePoints subject inner step .linear = .ok points) :
    ∃ start stop, inner.value 0 = .ok start ∧ inner.value inner.duration = .ok stop ∧
      Spans ⟨List.zipWith Breakpoint.mk points.times points.values⟩ inner.duration start stop := by
  obtain ⟨stepValue, values, _, _, timesSame, valuesOk, valuesSame, _⟩ :=
    Signal.sample_points_ok _ _ _ _ _ found
  have formed := Signal.samples_well_formed nonneg found
  have lasts := Signal.duration_of_samples found
  have pointTimes := Signal.times_of_samples found
  have zeroMember := formed.zero_mem_times
  have endMember := formed.duration_mem_times
  rw [pointTimes] at zeroMember endMember
  rw [lasts] at endMember
  change points.values = values at valuesSame
  rw [Outcome.mapM_ok_iff, ← valuesSame] at valuesOk
  obtain ⟨start, startOk, startMember⟩ := mem_samples valuesOk zeroMember
  obtain ⟨stop, stopOk, stopMember⟩ := mem_samples valuesOk endMember
  exact ⟨start, stop, startOk, stopOk, formed, lasts, startMember, stopMember⟩

end Analog.LinearSeries
