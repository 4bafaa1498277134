import Mathlib.Algebra.Order.BigOperators.Group.List
import Analog.Proofs.LinearValidation
import Analog.Proofs.Neighbours
import Analog.Proofs.RoundedQuotients

/-!
# Values at the end

The value at the end of a waveform is computed in three ways: by evaluation, by its series,
and by the expression in its outline. The three differ only by rounding. They agree for each
way of building waveforms if they do for the parts, except where a slice ends before the
whole does.
-/

set_option autoImplicit false

namespace Analog

open LinearSeries Validation

namespace Outcome

/-- What belongs to one item of a list, with what belongs to the items before and after it. -/
theorem related_split {α β : Type} {relation : α → β → Prop} {before after : List α} {item : α}
    {results : List β} (each : List.Forall₂ relation (before ++ item :: after) results) :
    ∃ earlier result later, results = earlier ++ result :: later ∧
      List.Forall₂ relation before earlier ∧ relation item result ∧
      List.Forall₂ relation after later := by
  obtain ⟨earlier, _, rfl, beforeRelated, restRelated⟩ := related_append each
  cases restRelated with
  | @cons _ result _ later related afterRelated =>
      exact ⟨earlier, result, later, rfl, beforeRelated, related, afterRelated⟩

end Outcome

namespace Signal

/-- Signals one after the other end where the last one that lasts does. -/
theorem concatenate_end {before after : List Signal} {part : Signal}
    (bounded : ∀ other ∈ before ++ part :: after, Bounded other) (positive : 0 < part.duration)
    (empty : ∀ other ∈ after, other.duration = 0) :
    (concatenate (before ++ part :: after)).value (concatenate (before ++ part :: after)).duration =
      part.value part.duration := by
  have allEmpty : after.all (·.duration.isZero) = true := by simpa using empty
  have beforeBounded : ∀ other ∈ before, Bounded other :=
    fun other member => bounded other (by simp [member])
  have restEmpty : totalDuration after = 0 := by
    rw [total_duration_zero_iff after fun other member => bounded other (by simp [member])]
    exact allEmpty
  have total : totalDuration (before ++ part :: after) = totalDuration before + part.duration := by
    rw [total_duration_eq_sum, List.map_append, List.sum_append, ← total_duration_eq_sum,
      ← total_duration_eq_sum, total_duration_cons, restEmpty, add_zero]
  unfold concatenate
  rw [duration_within, within_inside (total_duration_nonneg _ bounded) le_rfl, total,
    sequence_value_after before _ beforeBounded (by simp [positive.ne'])
      (le_add_of_nonneg_right positive.le), add_sub_cancel_left,
    ← List.singleton_append, sequence_value_append_empty [part] after allEmpty,
    sequence_value_single part positive le_rfl]

/-- Samples under linear interpolation are their own series, at all times. -/
theorem sampled_value {subject : Unit → String} {inner : Signal} {step : Outcome Decimal}
    {points : SamplePoints} {time : Decimal} (nonneg : 0 ≤ inner.duration)
    (found : samplePoints subject inner step .linear = .ok points) (started : 0 ≤ time)
    (reached : time ≤ inner.duration) :
    (sampled .linear (.ok points) inner.duration).value time =
      .ok (LinearSeries.eval ⟨List.zipWith Breakpoint.mk points.times points.values⟩ time) := by
  have formed := samples_well_formed nonneg found
  have lasts := duration_of_samples found
  have pointTimes := times_of_samples found
  obtain ⟨_, _, _, _, _, _, _, sameLength⟩ := sample_points_ok _ _ _ _ _ found
  have increasing : points.times.Pairwise (· < ·) := by
    rw [← pointTimes]
    exact formed.times_increasing
  obtain ⟨first, current, _⟩ := Breakpoints.holds_segment _ formed time started
  unfold sampled LinearSeries.eval LinearSeries.duration
  rw [within_inside started reached, Outcome.ok_bind, lasts,
    if_neg (by simpa using ⟨started, reached⟩)]
  dsimp only
  rw [pointTimes, ← Breakpoints.last_at_most_eq_segment] at current ⊢
  rw [current]
  obtain ⟨firstTime, firstValue, timeFound, valueFound, rfl⟩ :=
    List.getElem?_zipWith_eq_some.1 current
  unfold sampledValue
  dsimp only
  rw [List.getD_eq_getElem?_getD, List.getD_eq_getElem?_getD, timeFound, valueFound]
  cases next : (List.zipWith Breakpoint.mk points.times points.values)[
      Breakpoints.lastAtMost points.times time + 1]? with
  | none =>
      -- There is no later sample, so the one that holds is the last.
      obtain ⟨inside, _⟩ := List.getElem?_eq_some_iff.1 current
      rw [List.getElem?_eq_none_iff] at next
      have isLast : Breakpoints.lastAtMost points.times time =
          (List.zipWith Breakpoint.mk points.times points.values).length - 1 := by omega
      have noTime : points.times[Breakpoints.lastAtMost points.times time + 1]? = none := by
        rw [List.getElem?_eq_none_iff]
        simpa [sameLength] using next
      rw [noTime, List.getLast?_eq_getElem?, ← isLast, current]
      rfl
  | some second =>
      obtain ⟨secondTime, secondValue, nextTimeFound, nextValueFound, rfl⟩ :=
        List.getElem?_zipWith_eq_some.1 next
      rw [nextTimeFound, nextValueFound]
      obtain ⟨inside, firstAt⟩ := List.getElem?_eq_some_iff.1 timeFound
      obtain ⟨nextInside, secondAt⟩ := List.getElem?_eq_some_iff.1 nextTimeFound
      have ordered := List.pairwise_iff_getElem.1 increasing _ _ inside nextInside
        (Nat.lt_succ_self _)
      rw [firstAt, secondAt] at ordered
      obtain ⟨quotient, divides⟩ := Decimal.div_of_ne_zero
        ((secondValue - firstValue) * (time - firstTime)) (secondTime - firstTime)
        (sub_pos.2 ordered).ne'
      simp only [Option.getD_some]
      rw [if_neg ordered.ne', Breakpoints.between, (Decimal.quotient_ok_iff _ _ _).2 divides,
        Outcome.ok_bind, Breakpoints.onLine, divides]
      rfl

/-- A line reaches its end if the way there needs no more digits than quotients have. -/
theorem line_end {first last length : Decimal} (positive : 0 < length)
    (digits : (last - first).scale ≤ Decimal.quotientPlaces) :
    (line (.ok first) (.ok last) length).value length = .ok last := by
  unfold line
  rw [within_inside positive.le le_rfl, Outcome.ok_bind, Outcome.ok_bind,
    if_neg (by simpa using positive.ne'), Breakpoints.between, sub_zero,
    (Decimal.quotient_ok_iff _ _ _).2 (Decimal.mul_div_cancel positive digits), Outcome.ok_bind,
    add_sub_cancel]
  rfl

end Signal

namespace LinearSeries

theorem concatenate_empty {joined whole : LinearSeries} {parts : List LinearSeries}
    (empty : ∀ part ∈ parts, part.duration = 0)
    (joins : concatenate (some joined) (parts.map some) = .ok (some whole)) : whole = joined := by
  induction parts with
  | nil =>
      rw [List.map_nil, concatenate, Except.ok.injEq, Option.some.injEq] at joins
      exact joins.symm
  | cons part rest ih =>
      obtain ⟨partEmpty, restEmpty⟩ := List.forall_mem_cons.1 empty
      rw [List.map_cons, concatenate_cons, if_pos (by simpa using partEmpty)] at joins
      exact ih restEmpty joins

/-- Series one after the other end where the last one that lasts does. -/
theorem concatenate_end {joined part whole : LinearSeries} {before after : List LinearSeries}
    {duration first last : Decimal} (spans : Spans joined duration first last)
    (each : ∀ other ∈ before ++ part :: after,
      ∃ length start stop, Spans other length start stop)
    (lasting : part.duration ≠ 0) (empty : ∀ other ∈ after, other.duration = 0)
    (joins : concatenate (some joined) ((before ++ part :: after).map some) = .ok (some whole)) :
    whole.eval whole.duration = part.eval part.duration := by
  induction before generalizing joined duration first last with
  | nil =>
      rw [List.nil_append, List.map_cons, concatenate_cons, if_neg (by simpa using lasting)] at joins
      split_ifs at joins with joinedEmpty
      · rw [concatenate_empty empty joins]
      · obtain ⟨longer, appended, joins⟩ := (Outcome.bind_ok_iff _ _ _).1 joins
        obtain ⟨length, start, stop, partSpans⟩ := each part (by simp)
        obtain ⟨_, rfl⟩ := (append_ok_iff spans partSpans _).1 appended
        have joinedLasts : duration ≠ 0 := by simpa [spans.lasts] using joinedEmpty
        have longerSpans := append_spans spans partSpans
          (lt_of_le_of_ne spans.nonneg joinedLasts.symm)
        rw [concatenate_empty empty joins, longerSpans.lasts, longerSpans.eval_stop,
          partSpans.lasts, partSpans.eval_stop]
  | cons other rest ih =>
      obtain ⟨⟨length, start, stop, otherSpans⟩, restEach⟩ := List.forall_mem_cons.1 each
      rw [List.cons_append, List.map_cons, concatenate_cons] at joins
      split_ifs at joins with otherEmpty joinedEmpty
      · exact ih spans restEach joins
      · exact ih otherSpans restEach joins
      · obtain ⟨longer, appended, joins⟩ := (Outcome.bind_ok_iff _ _ _).1 joins
        obtain ⟨_, rfl⟩ := (append_ok_iff spans otherSpans _).1 appended
        have joinedLasts : duration ≠ 0 := by simpa [spans.lasts] using joinedEmpty
        exact ih (append_spans spans otherSpans (lt_of_le_of_ne spans.nonneg joinedLasts.symm))
          restEach joins

end LinearSeries

namespace Validation

/-- The ends of waveforms one after the other stop as the last ones that last do. -/
theorem join_ends_stop {before after : List Ends} {part : Ends}
    (nonneg : ∀ other ∈ before, 0 ≤ other.duration) (positive : 0 < part.duration)
    (empty : ∀ other ∈ after, other.duration = 0) :
    (joinEnds (before ++ part :: after)).stop = part.stop := by
  have follow : ∀ (rest : List Ends) (given : Ends), (∀ other ∈ rest, other.duration = 0) →
      given.duration ≠ 0 → (rest.foldl followEnds given).stop = given.stop := by
    intro rest
    induction rest with
    | nil => intros; rfl
    | cons other rest ih =>
        intro given restEmpty lasting
        obtain ⟨otherEmpty, othersEmpty⟩ := List.forall_mem_cons.1 restEmpty
        have kept : followEnds given other = ⟨given.start, given.stop, given.duration⟩ := by
          unfold followEnds
          rw [if_neg (by simpa using lasting), if_pos (by simpa using otherEmpty), otherEmpty,
            add_zero]
        rw [List.foldl_cons, kept]
        exact ih given othersEmpty lasting
  have soFar : 0 ≤ (joinEnds before).duration := by
    rw [join_ends_duration]
    exact List.sum_nonneg (by simpa using nonneg)
  have reached : (followEnds (joinEnds before) part).stop = part.stop ∧
      (followEnds (joinEnds before) part).duration = (joinEnds before).duration + part.duration := by
    unfold followEnds
    rw [if_neg (show ¬part.duration.isZero = true by simpa using positive.ne')]
    split_ifs <;> exact ⟨rfl, rfl⟩
  unfold joinEnds at soFar reached ⊢
  rw [List.foldl_append, List.foldl_cons, follow after _ empty, reached.1]
  rw [reached.2]
  exact (add_pos_of_nonneg_of_pos soFar positive).ne'

end Validation

namespace Waveform

variable [Natives] {bindings : ScalarBindings}

/-- The value at the end of a waveform: that of its meaning, that of its series if it has one, and
that of the expression in its outline if it has one. -/
structure EndsAt (bindings : ScalarBindings) (waveform : Waveform) (value : Decimal) : Prop where
  evaluated : ∀ meaning, waveform.signal bindings = .ok meaning →
    meaning.value meaning.duration = .ok value
  interpolated : ∀ series, lowerLinear bindings waveform = .ok series →
    series.eval series.duration = value
  outlined : ∀ outlined, outline bindings .linear waveform = .ok outlined →
    ∃ stop ∈ outlined.ends.stop, stop.eval bindings = .ok value

theorem spans_of_lowers {waveform : Waveform} {series : LinearSeries}
    (filled : ∀ node ∈ waveform.exposed, node ≠ .append [])
    (lowers : Lowers bindings waveform series) :
    Spans series series.duration (series.eval 0) (series.eval series.duration) := by
  obtain ⟨_, _, _, _, _, spans⟩ := spanned_of_lowers waveform series filled lowers
  have own := spans.own
  rwa [← spans.lasts] at own

theorem changed_ends_at {waveform inner : Waveform} {value : Decimal} {f : Decimal → Decimal}
    {change : Scalar → Scalar} (filled : ∀ node ∈ inner.exposed, node ≠ .append [])
    (ends : EndsAt bindings inner value)
    (means : ∀ meaning, waveform.signal bindings = .ok meaning →
      ∃ innerMeaning, inner.signal bindings = .ok innerMeaning ∧
        meaning.duration = innerMeaning.duration ∧
        ∀ found, innerMeaning.value innerMeaning.duration = .ok found →
          meaning.value innerMeaning.duration = .ok (f found))
    (lowers : ∀ series, Lowers bindings waveform series →
      ∃ innerSeries, Lowers bindings inner innerSeries ∧ series = innerSeries.map f)
    (outlines : ∀ outlined, Outlines bindings waveform outlined →
      ∃ innerOutlined ends, Outlines bindings inner innerOutlined ∧
        mapEnds change innerOutlined.ends = .ok ends ∧ outlined = .wrapped ends innerOutlined)
    (changes : ∀ expression found, expression.eval bindings = .ok found →
      (change expression).eval bindings = .ok (f found)) :
    EndsAt bindings waveform (f value) := by
  refine ⟨fun meaning meaningOk => ?_, fun series lowered => ?_, fun outlined outlinedOk => ?_⟩
  · obtain ⟨innerMeaning, innerOk, lasts, changed⟩ := means meaning meaningOk
    rw [lasts]
    exact changed value (ends.evaluated innerMeaning innerOk)
  · obtain ⟨innerSeries, innerLowers, rfl⟩ := lowers series ((lower_linear_ok_iff _ _).1 lowered)
    have spans := map_spans f (spans_of_lowers filled innerLowers)
    rw [spans.lasts, spans.eval_stop,
      ends.interpolated innerSeries ((lower_linear_ok_iff _ _).2 innerLowers)]
  · obtain ⟨innerOutlined, changedEnds, innerOutlines, mapped, rfl⟩ := outlines outlined outlinedOk
    obtain ⟨start, stop, _, stopSame, rfl⟩ := (map_ends_ok_iff _ _ _).1 mapped
    obtain ⟨expression, same, evaluates⟩ := ends.outlined innerOutlined innerOutlines
    rw [stopSame, Option.mem_some_iff] at same
    subst same
    exact ⟨change stop, rfl, changes stop value evaluates⟩

theorem negative_ends_at {inner : Waveform} {value : Decimal}
    (filled : ∀ node ∈ inner.exposed, node ≠ .append [])
    (ends : EndsAt bindings inner value) : EndsAt bindings (.negative inner) (-value) := by
  refine changed_ends_at filled ends (fun meaning means => ?_)
    (fun series => (negative_lowers_iff series inner).1)
    (fun outlined => (negative_outlines_iff outlined inner).1)
    fun expression found evaluates => (Scalar.eval_negative_ok_iff _ _).2 ⟨found, evaluates, rfl⟩
  rw [signal, Outcome.return_ok_iff] at means
  obtain ⟨innerMeaning, innerMeans, rfl⟩ := means
  refine ⟨innerMeaning, innerMeans, rfl, fun found valued => ?_⟩
  have bounded := signal_bounded bindings inner innerMeaning innerMeans
  rw [Signal.negate, Signal.within_inside bounded.nonneg le_rfl, valued]
  rfl

theorem scale_ends_at {factor : Scalar} {inner : Waveform} {number value : Decimal}
    (filled : ∀ node ∈ inner.exposed, node ≠ .append [])
    (factorOk : factor.eval bindings = .ok number) (ends : EndsAt bindings inner value) :
    EndsAt bindings (.scale factor inner) (number * value) := by
  refine changed_ends_at filled ends (fun meaning means => ?_) (fun series lowers => ?_)
    (fun outlined => (scale_outlines_iff outlined factor inner).1)
    fun expression found evaluates =>
      (Scalar.eval_mul_ok_iff _ _ _).2 ⟨number, found, factorOk, evaluates, rfl⟩
  · rw [signal, Outcome.return_ok_iff] at means
    obtain ⟨innerMeaning, innerMeans, rfl⟩ := means
    refine ⟨innerMeaning, innerMeans, rfl, fun found valued => ?_⟩
    have bounded := signal_bounded bindings inner innerMeaning innerMeans
    rw [Signal.scaled, Signal.within_inside bounded.nonneg le_rfl, factorOk, valued]
    rfl
  · obtain ⟨innerSeries, found, innerLowers, foundOk, rfl⟩ := (scale_lowers_iff _ _ _).1 lowers
    rw [Except.ok.inj (foundOk.symm.trans factorOk)]
    exact ⟨innerSeries, innerLowers, rfl⟩

/-- Where a waveform does not count, any value will do for its end. -/
theorem counted_ends_at {waveform : Waveform} {counts : Prop}
    (known : counts → ∃ value, EndsAt bindings waveform value) :
    ∃ value, counts → EndsAt bindings waveform value := by
  by_cases counted : counts
  · obtain ⟨value, ends⟩ := known counted
    exact ⟨value, fun _ => ends⟩
  · exact ⟨0, fun given => absurd given counted⟩

/-- Where both operands of a sum end, their values are added. Else the longer one counts alone. -/
theorem add_ends_at {left right : Waveform} {first second leftValue rightValue : Decimal}
    (leftFilled : ∀ node ∈ left.exposed, node ≠ .append [])
    (rightFilled : ∀ node ∈ right.exposed, node ≠ .append [])
    (leftLasts : left.duration bindings = .ok first)
    (rightLasts : right.duration bindings = .ok second)
    (leftEnds : second ≤ first → EndsAt bindings left leftValue)
    (rightEnds : first ≤ second → EndsAt bindings right rightValue) :
    EndsAt bindings (.add left right)
      (if first < second then rightValue else if second < first then leftValue
        else leftValue + rightValue) := by
  refine ⟨fun meaning means => ?_, fun series lowered => ?_, fun outlined outlines => ?_⟩
  · rw [signal, Outcome.bind_ok_iff] at means
    obtain ⟨leftMeaning, leftMeans, means⟩ := means
    obtain ⟨rightMeaning, rightMeans, rfl⟩ := (Outcome.return_ok_iff _ _ _).1 means
    have leftBounded := signal_bounded bindings left leftMeaning leftMeans
    have rightBounded := signal_bounded bindings right rightMeaning rightMeans
    rw [duration_of_signal leftMeans, Except.ok.injEq] at leftLasts
    rw [duration_of_signal rightMeans, Except.ok.injEq] at rightLasts
    subst leftLasts rightLasts
    rw [Signal.plus, Signal.duration_within,
      Signal.within_inside (le_max_of_le_left leftBounded.nonneg) le_rfl]
    split_ifs with shorter longer
    · rw [max_eq_right shorter.le, (rightEnds shorter.le).evaluated _ rightMeans,
        leftBounded.silent _ (Or.inr shorter), Outcome.ok_bind, Outcome.ok_bind, zero_add]
      rfl
    · rw [max_eq_left longer.le, (leftEnds longer.le).evaluated _ leftMeans,
        rightBounded.silent _ (Or.inr longer), Outcome.ok_bind, Outcome.ok_bind, add_zero]
      rfl
    · have same := le_antisymm (not_lt.1 longer) (not_lt.1 shorter)
      rw [same, max_self, (rightEnds same.le).evaluated _ rightMeans, ← same,
        (leftEnds same.ge).evaluated _ leftMeans]
      rfl
  · obtain ⟨leftSeries, rightSeries, leftLowers, rightLowers, summed⟩ :=
      (add_lowers_iff _ _ _).1 ((lower_linear_ok_iff _ _).1 lowered)
    have leftSpans := spans_of_lowers leftFilled leftLowers
    have rightSpans := spans_of_lowers rightFilled rightLowers
    obtain ⟨_, rfl⟩ := (plus_ok_iff leftSpans rightSpans series).1 summed
    have spans := plus_spans leftSpans rightSpans
    rw [duration_of_lowers leftFilled leftLowers, Except.ok.injEq] at leftLasts
    rw [duration_of_lowers rightFilled rightLowers, Except.ok.injEq] at rightLasts
    subst leftLasts rightLasts
    rw [spans.lasts, spans.eval_stop]
    split_ifs with shorter longer
    · exact (rightEnds shorter.le).interpolated _ ((lower_linear_ok_iff _ _).2 rightLowers)
    · exact (leftEnds longer.le).interpolated _ ((lower_linear_ok_iff _ _).2 leftLowers)
    · rw [(leftEnds (not_lt.1 shorter)).interpolated _ ((lower_linear_ok_iff _ _).2 leftLowers),
        (rightEnds (not_lt.1 longer)).interpolated _ ((lower_linear_ok_iff _ _).2 rightLowers)]
  · obtain ⟨leftOutlined, rightOutlined, ends, leftOutlines, rightOutlines, added, rfl⟩ :=
      (add_outlines_iff _ _ _).1 outlines
    rw [duration_of_outlines left _ leftOutlines, Except.ok.injEq] at leftLasts
    rw [duration_of_outlines right _ rightOutlines, Except.ok.injEq] at rightLasts
    subst leftLasts rightLasts
    unfold sumOfEnds at added
    obtain ⟨start, _, added⟩ := (Outcome.bind_ok_iff _ _ _).1 added
    split_ifs at added ⊢ with shorter longer
    · rw [Outcome.pure_ok_iff] at added
      subst added
      exact (rightEnds shorter.le).outlined rightOutlined rightOutlines
    · rw [Outcome.pure_ok_iff] at added
      subst added
      exact (leftEnds longer.le).outlined leftOutlined leftOutlines
    · obtain ⟨leftStop, leftSame, leftOk⟩ := (leftEnds (not_lt.1 shorter)).outlined _ leftOutlines
      obtain ⟨rightStop, rightSame, rightOk⟩ :=
        (rightEnds (not_lt.1 longer)).outlined _ rightOutlines
      rw [(add_ends_ok_iff _ _ _).2 ⟨leftStop, rightStop, leftSame, rightSame, rfl⟩,
        Outcome.ok_bind, Outcome.pure_ok_iff] at added
      subst added
      exact ⟨.add leftStop rightStop, rfl,
        (Scalar.eval_add_ok_iff _ _ _).2 ⟨_, _, leftOk, rightOk, rfl⟩⟩

theorem slice_ends_at {inner : Waveform} {interval : Interval} {value : Decimal}
    (filled : ∀ node ∈ inner.exposed, node ≠ .append []) (whole : interval.stop = none)
    (ends : EndsAt bindings inner value) : EndsAt bindings (.slice inner interval) value := by
  have reaches : ∀ {subject : Unit → String} {extent lower upper : Decimal},
      sliceBounds bindings subject interval extent = .ok (lower, upper) →
        upper = extent ∧ lower ≤ extent := by
    intro subject extent lower upper bounds
    obtain ⟨start, stop, _, stopOk, rfl, rfl, ordered⟩ := (slice_bounds_ok_iff _ _ _ _ _ _).1 bounds
    rw [whole, Scalar.eval_bound_ok_iff] at stopOk
    cases stopOk
    exact ⟨rfl, ordered.2.1⟩
  refine ⟨fun meaning means => ?_, fun series lowered => ?_, fun outlined outlines => ?_⟩
  · rw [signal, Outcome.bind_ok_iff] at means
    obtain ⟨innerMeaning, innerMeans, means⟩ := means
    obtain ⟨⟨lower, upper⟩, bounds, rfl⟩ := (Outcome.return_ok_iff _ _ _).1 means
    obtain ⟨rfl, ordered⟩ := reaches bounds
    rw [Signal.cut, Signal.duration_within, Signal.within_inside (sub_nonneg.2 ordered) le_rfl,
      sub_add_cancel]
    exact ends.evaluated innerMeaning innerMeans
  · obtain ⟨innerSeries, lower, upper, innerLowers, bounds, sliced⟩ :=
      (slice_lowers_iff _ _ _).1 ((lower_linear_ok_iff _ _).1 lowered)
    obtain ⟨rfl, _⟩ := reaches bounds
    have spans := slice_spans (spans_of_lowers filled innerLowers).formed sliced
    rw [spans.lasts, spans.eval_stop]
    exact ends.interpolated innerSeries ((lower_linear_ok_iff _ _).2 innerLowers)
  · obtain ⟨innerOutlined, lower, upper, start, stop, innerOutlines, _, _, stopOk, rfl⟩ :=
      (slice_outlines_iff _ _ _).1 outlines
    rw [whole, boundValue, Except.ok.injEq] at stopOk
    subst stopOk
    exact ends.outlined innerOutlined innerOutlines

section Sequences

variable {before after : List Waveform} {part : Waveform} {value : Decimal}

theorem append_evaluated_end
    (lasting : ∀ length, part.duration bindings = .ok length → 0 < length)
    (empty : ∀ other ∈ after, ∀ length, other.duration bindings = .ok length → length = 0)
    (ends : EndsAt bindings part value) {meaning : Signal}
    (means : (Waveform.append (before ++ part :: after)).signal bindings = .ok meaning) :
    meaning.value meaning.duration = .ok value := by
  rw [signal, Outcome.return_ok_iff] at means
  obtain ⟨meanings, allMean, rfl⟩ := means
  rw [signals_ok_iff] at allMean
  have bounded : ∀ other ∈ meanings, other.Bounded := by
    intro other member
    obtain ⟨source, _, sourceMeans⟩ := Outcome.source_of_mem allMean member
    exact signal_bounded bindings source other sourceMeans
  obtain ⟨earlier, found, later, rfl, _, partMeans, laterMean⟩ := Outcome.related_split allMean
  rw [Signal.concatenate_end bounded (lasting _ (duration_of_signal partMeans)),
    ends.evaluated found partMeans]
  intro other member
  obtain ⟨source, sourceMember, sourceMeans⟩ := Outcome.source_of_mem laterMean member
  exact empty source sourceMember _ (duration_of_signal sourceMeans)

theorem append_interpolated_end
    (filled : ∀ node ∈ (Waveform.append (before ++ part :: after)).exposed, node ≠ .append [])
    (lasting : ∀ length, part.duration bindings = .ok length → 0 < length)
    (empty : ∀ other ∈ after, ∀ length, other.duration bindings = .ok length → length = 0)
    (ends : EndsAt bindings part value) {series : LinearSeries}
    (lowers : Lowers bindings (.append (before ++ part :: after)) series) :
    series.eval series.duration = value := by
  obtain ⟨first, rest, _, _, same, firstLowers, restLower, joins⟩ :=
    (append_lowers_iff _ filled _).1 lowers
  have partFilled := exposed_of_part filled
  have allLower := List.Forall₂.cons firstLowers restLower
  rw [← same] at allLower
  have allSpan : ∀ other ∈ first :: rest, ∃ length start stop, Spans other length start stop := by
    intro other member
    obtain ⟨source, sourceMember, sourceLowers⟩ := Outcome.source_of_mem allLower member
    exact ⟨_, _, _, spans_of_lowers (partFilled source sourceMember) sourceLowers⟩
  obtain ⟨⟨_, _, _, firstSpans⟩, restSpan⟩ := List.forall_mem_cons.1 allSpan
  obtain ⟨earlier, found, later, foundSame, _, partLowers, laterLower⟩ :=
    Outcome.related_split allLower
  have laterEmpty : ∀ other ∈ later, other.duration = 0 := by
    intro other member
    obtain ⟨source, sourceMember, sourceLowers⟩ := Outcome.source_of_mem laterLower member
    exact empty source sourceMember _
      (duration_of_lowers (partFilled source (by simp [sourceMember])) sourceLowers)
  have foundLasts := lasting _ (duration_of_lowers (partFilled part (by simp)) partLowers)
  have reached := ends.interpolated found ((lower_linear_ok_iff _ _).2 partLowers)
  cases earlier with
  | nil =>
      obtain ⟨rfl, rfl⟩ := List.cons.inj foundSame
      rw [concatenate_empty laterEmpty joins, reached]
  | cons _ others =>
      obtain ⟨rfl, rfl⟩ := List.cons.inj foundSame
      rw [concatenate_end firstSpans restSpan foundLasts.ne' laterEmpty joins, reached]

theorem append_outlined_end
    (lasting : ∀ length, part.duration bindings = .ok length → 0 < length)
    (empty : ∀ other ∈ after, ∀ length, other.duration bindings = .ok length → length = 0)
    (ends : EndsAt bindings part value) {outlined : Outline}
    (outlines : Outlines bindings (.append (before ++ part :: after)) outlined) :
    ∃ stop ∈ outlined.ends.stop, stop.eval bindings = .ok value := by
  obtain ⟨found, allOutlined, rfl⟩ := (append_outlines_iff _ _).1 outlines
  obtain ⟨earlier, foundPart, later, rfl, earlierOutlined, partOutlines, laterOutlined⟩ :=
    Outcome.related_split allOutlined
  have known := fun waveform outlined => @duration_of_outlines bindings _ waveform outlined
  change ∃ stop ∈ (joinEnds _).stop, _
  rw [List.map_append, List.map_cons, join_ends_stop]
  · exact ends.outlined foundPart partOutlines
  · intro other member
    obtain ⟨outlined, outlinedMember, rfl⟩ := List.mem_map.1 member
    obtain ⟨source, _, sourceOutlines⟩ := Outcome.source_of_mem earlierOutlined outlinedMember
    obtain ⟨meaning, means, lasts⟩ := signal_of_duration (known source outlined sourceOutlines)
    rw [← lasts]
    exact (signal_bounded bindings source meaning means).nonneg
  · exact lasting _ (known part foundPart partOutlines)
  · intro other member
    obtain ⟨outlined, outlinedMember, rfl⟩ := List.mem_map.1 member
    obtain ⟨source, sourceMember, sourceOutlines⟩ :=
      Outcome.source_of_mem laterOutlined outlinedMember
    exact empty source sourceMember _ (known source outlined sourceOutlines)

/-- Waveforms one after the other end where the last one that lasts does. -/
theorem append_ends_at
    (filled : ∀ node ∈ (Waveform.append (before ++ part :: after)).exposed, node ≠ .append [])
    (lasting : ∀ length, part.duration bindings = .ok length → 0 < length)
    (empty : ∀ other ∈ after, ∀ length, other.duration bindings = .ok length → length = 0)
    (ends : EndsAt bindings part value) :
    EndsAt bindings (.append (before ++ part :: after)) value :=
  ⟨fun _ => append_evaluated_end lasting empty ends,
    fun _ lowered => append_interpolated_end filled lasting empty ends
      ((lower_linear_ok_iff _ _).1 lowered),
    fun _ => append_outlined_end lasting empty ends⟩

end Sequences

/-- The rise of every line in a waveform needs no more digits than quotients have. -/
def RisesExactly (bindings : ScalarBindings) (waveform : Waveform) : Prop :=
  ∀ start stop duration, Waveform.ramp start stop duration ∈ waveform.nodes →
    ∀ first last, start.eval bindings = .ok first → stop.eval bindings = .ok last →
      (last - first).scale ≤ Decimal.quotientPlaces

omit [Natives] in
theorem RisesExactly.child {waveform child : Waveform} (rises : RisesExactly bindings waveform)
    (member : child ∈ waveform.children) : RisesExactly bindings child := by
  intro start stop duration inside
  apply rises start stop duration
  rw [nodes_eq, List.mem_cons, mem_nodes_all]
  exact Or.inr ⟨child, member, inside⟩

theorem ramp_end {start stop duration : Scalar} {meaning : Signal} {value : Decimal}
    (rises : RisesExactly bindings (.ramp start stop duration))
    (means : (Waveform.ramp start stop duration).signal bindings = .ok meaning)
    (positive : 0 < meaning.duration) (valued : meaning.value meaning.duration = .ok value) :
    stop.eval bindings = .ok value := by
  rw [signal, Outcome.return_ok_iff] at means
  obtain ⟨length, _, rfl⟩ := means
  change 0 < length at positive
  change (Signal.line _ _ length).value length = _ at valued
  have whole := valued
  rw [Signal.line, Signal.within_inside positive.le le_rfl, Outcome.bind_ok_iff] at whole
  obtain ⟨first, startOk, whole⟩ := whole
  obtain ⟨last, stopOk, _⟩ := (Outcome.bind_ok_iff _ _ _).1 whole
  have digits := rises start stop duration (by simp [nodes]) first last startOk stopOk
  rw [startOk, stopOk, Signal.line_end positive digits] at valued
  rw [stopOk, valued]

omit [Natives] in
theorem not_zero_of_lasts {duration : Scalar} {length : Decimal}
    (lasts : leafDuration bindings duration = .ok length) (positive : 0 < length) :
    duration.isZero = false := by
  obtain ⟨durationOk, _⟩ := (leaf_duration_ok_iff _ _ _).1 lasts
  cases duration with
  | literal value | assigned name value =>
      simp only [Scalar.eval, Except.ok.injEq] at durationOk
      simpa [Scalar.isZero, Scalar.value?, durationOk] using positive.ne'
  | _ => rfl

/-- The expression for the value of a leaf at its end has the value of the leaf there. -/
theorem symbolic_end {waveform : Waveform} {meaning : Signal} {value : Decimal}
    {expression : Scalar} (rises : RisesExactly bindings waveform)
    (means : waveform.signal bindings = .ok meaning) (positive : 0 < meaning.duration)
    (valued : meaning.value meaning.duration = .ok value)
    (found : symbolicValue? bindings waveform.symbolicDuration waveform = some expression) :
    expression.eval bindings = .ok value := by
  induction waveform using Waveform.parts_induction generalizing meaning value expression with
  | constant level duration =>
      rw [signal, Outcome.return_ok_iff] at means
      obtain ⟨length, _, rfl⟩ := means
      cases found
      change 0 < length at positive
      rwa [Signal.duration_within, Signal.within_inside positive.le le_rfl] at valued
  | ramp start stop duration =>
      have notZero := not_zero_of_lasts (duration_of_signal means) positive
      rw [symbolicValue?, symbolicDuration, Option.some.injEq, Validation.ramp, notZero,
        Scalar.same_refl] at found
      subst found
      exact ramp_end rises means positive valued
  | poly coefficients duration =>
      obtain ⟨durationOk, _⟩ := (leaf_duration_ok_iff _ _ _).1 (duration_of_signal means)
      rw [signal, Outcome.return_ok_iff] at means
      obtain ⟨length, _, rfl⟩ := means
      cases found
      change 0 < length at positive
      rw [Signal.duration_within, Signal.within_inside positive.le le_rfl,
        Outcome.return_ok_iff] at valued
      obtain ⟨values, valuesOk, rfl⟩ := valued
      exact polynomial_eval durationOk valuesOk
  | negative inner ih =>
      rw [signal, Outcome.return_ok_iff] at means
      obtain ⟨innerMeaning, innerMeans, rfl⟩ := means
      change 0 < innerMeaning.duration at positive
      obtain ⟨innerFound, innerSame, rfl⟩ := Option.map_eq_some_iff.1 found
      rw [Signal.negate, Signal.duration_within, Signal.within_inside positive.le le_rfl,
        Outcome.return_ok_iff] at valued
      obtain ⟨innerValue, innerValued, rfl⟩ := valued
      have innerOk := ih (rises.child (by simp [children])) innerMeans positive innerValued innerSame
      exact (Scalar.eval_mul_ok_iff _ _ _).2
        ⟨-1, innerValue, rfl, innerOk, (neg_one_mul innerValue).symm⟩
  | scale factor inner ih =>
      rw [signal, Outcome.return_ok_iff] at means
      obtain ⟨innerMeaning, innerMeans, rfl⟩ := means
      change 0 < innerMeaning.duration at positive
      obtain ⟨innerFound, innerSame, rfl⟩ := Option.map_eq_some_iff.1 found
      rw [Signal.scaled, Signal.duration_within, Signal.within_inside positive.le le_rfl,
        Outcome.bind_ok_iff] at valued
      obtain ⟨number, factorOk, valued⟩ := valued
      obtain ⟨innerValue, innerValued, rfl⟩ := (Outcome.return_ok_iff _ _ _).1 valued
      have innerOk := ih (rises.child (by simp [children])) innerMeans positive innerValued innerSame
      exact (Scalar.eval_mul_ok_iff _ _ _).2 ⟨number, innerValue, factorOk, innerOk, rfl⟩
  | record name inner side ih =>
      exact ih (rises.child (by simp [children])) means positive valued found
  | aligned inner alignment fill ih =>
      exact ih (rises.child (by simp [children])) means positive valued found
  | _ => cases found

theorem sample_ends_at {inner : Waveform} {step : Scalar} {interpolation : Interpolation}
    {series : LinearSeries} (rises : RisesExactly bindings inner)
    (tidied : ∀ node ∈ inner.nodes, ∀ scalar ∈ node.scalars, scalar.tidy = true)
    (lowers : Lowers bindings (.sample inner step interpolation) series)
    (positive : 0 < series.duration) :
    EndsAt bindings (.sample inner step interpolation) (series.eval series.duration) := by
  obtain ⟨rfl, meaning, points, means, found, rfl⟩ := (sample_lowers_iff _ _ _ _).1 lowers
  have bounded := signal_bounded bindings inner meaning means
  obtain ⟨start, stop, _, stopOk, spans⟩ := samples_span bounded.nonneg found
  rw [spans.lasts] at positive ⊢
  rw [spans.eval_stop]
  refine ⟨fun other otherMeans => ?_, fun other otherLowers => ?_, fun outlined outlines => ?_⟩
  · rw [signal, means, Outcome.ok_bind, found, Outcome.pure_ok_iff] at otherMeans
    subst otherMeans
    change (Signal.sampled _ _ _).value meaning.duration = _
    rw [Signal.sampled_value bounded.nonneg found bounded.nonneg le_rfl, spans.eval_stop]
  · rw [lower_linear_ok_iff] at otherLowers
    rw [Option.some.inj (Except.ok.inj (otherLowers.symm.trans lowers)), spans.lasts,
      spans.eval_stop]
  · obtain ⟨_, length, first, last, lasts, _, lastOk, rfl⟩ := (sample_outlines_iff _ _ _ _).1 outlines
    refine ⟨last, rfl, ?_⟩
    unfold Validation.valueAt at lastOk
    cases symbolic : symbolicValue? bindings inner.symbolicDuration inner with
    | some expression =>
        rw [symbolic, Except.ok.injEq] at lastOk
        rw [← lastOk]
        exact symbolic_end rises means positive stopOk symbolic
    | none =>
        have known := symbolic_duration_known inner meaning.duration tidied (duration_of_signal means)
        rw [symbolic] at lastOk
        dsimp only at lastOk
        rw [known.evaluates, Outcome.ok_bind, Waveform.valueAt, means, Outcome.ok_bind, stopOk,
          Outcome.ok_bind, Outcome.pure_ok_iff] at lastOk
        rw [← lastOk]
        rfl

theorem leaf_ends_at {waveform : Waveform} {length first last : Decimal} {start stop : Scalar}
    (positive : 0 < length) (lowers : Lowers bindings waveform (line length first last))
    (outlines : Outlines bindings waveform (.leaf ⟨some start, some stop, length⟩))
    (valued : ∀ meaning, waveform.signal bindings = .ok meaning → meaning.value length = .ok last)
    (evaluates : stop.eval bindings = .ok last) : EndsAt bindings waveform last := by
  have spans := @line_spans length first last positive.le
  rw [if_neg positive.ne'] at spans
  have lasts := duration_of_outlines waveform _ outlines
  refine ⟨fun meaning means => ?_, fun series lowered => ?_, fun outlined found => ?_⟩
  · rw [Except.ok.inj ((duration_of_signal means).symm.trans lasts)]
    exact valued meaning means
  · rw [lower_linear_ok_iff] at lowered
    rw [Option.some.inj (Except.ok.inj (lowered.symm.trans lowers)), spans.lasts, spans.eval_stop]
  · rw [Except.ok.inj (found.symm.trans outlines)]
    exact ⟨stop, rfl, evaluates⟩

/-- A waveform whose end value is known exactly: its lines rise exactly, and wherever a slice ends
before the whole does, the value there is the same in all ways. -/
structure ExactEnd (bindings : ScalarBindings) (waveform : Waveform) : Prop where
  filled : ∀ node ∈ waveform.exposed, node ≠ .append []
  tidied : ∀ node ∈ waveform.nodes, ∀ scalar ∈ node.scalars, scalar.tidy = true
  rises : RisesExactly bindings waveform
  cuts : ∀ inner interval, .slice inner interval ∈ waveform.exposed →
    interval.stop = none ∨ ∃ value, EndsAt bindings (.slice inner interval) value

theorem ExactEnd.child {waveform child : Waveform} (precise : ExactEnd bindings waveform)
    (member : child ∈ waveform.children) (isExposed : child.exposed ⊆ waveform.exposed) :
    ExactEnd bindings child :=
  ⟨fun node nodeMember => precise.filled node (isExposed nodeMember),
    ((each_node_iff _ _).1 precise.tidied).2 child member, precise.rises.child member,
    fun inner interval nodeMember => precise.cuts inner interval (isExposed nodeMember)⟩

theorem ExactEnd.part {parts : List Waveform} {part : Waveform}
    (precise : ExactEnd bindings (.append parts)) (member : part ∈ parts) :
    ExactEnd bindings part := by
  apply precise.child member
  intro node nodeMember
  simp only [exposed, List.mem_cons, mem_exposed_all]
  exact Or.inr ⟨part, member, nodeMember⟩

theorem positive_of_lasts {waveform : Waveform} {length : Decimal}
    (lasting : waveform.lasts bindings = true) (known : waveform.duration bindings = .ok length) :
    0 < length := by
  obtain ⟨meaning, means, rfl⟩ := signal_of_duration known
  rw [lasts_of_duration known, decide_eq_true_iff] at lasting
  exact lt_of_le_of_ne (signal_bounded bindings waveform meaning means).nonneg lasting.symm

omit [Natives] in
/-- Of waveforms that last together, there is a last one that lasts. -/
theorem exists_last_lasting {parts : List Waveform} {total : Decimal}
    (known : totalDuration bindings parts = .ok total) (positive : 0 < total) :
    ∃ before part after, parts = before ++ part :: after ∧ part.lasts bindings = true ∧
      ∀ other ∈ after, ∀ length, other.duration bindings = .ok length → length = 0 := by
  obtain ⟨values, each, rfl⟩ := (total_duration_ok_iff _ _).1 known
  have some : parts.reverse.find? (lasts bindings) ≠ none := by
    intro none
    rw [List.find?_eq_none] at none
    refine positive.ne' (List.sum_eq_zero fun value member => ?_)
    obtain ⟨part, partMember, partLasts⟩ := Outcome.source_of_mem each member
    have ended := none part (by simpa using partMember)
    rw [lasts_of_duration partLasts] at ended
    simpa using ended
  obtain ⟨part, found⟩ := Option.ne_none_iff_exists'.1 some
  obtain ⟨lasting, later, earlier, split, ended⟩ := List.find?_eq_some_iff_append.1 found
  refine ⟨earlier.reverse, part, later.reverse, ?_, lasting, ?_⟩
  · rw [← List.reverse_reverse parts, split]
    simp
  · intro other member length otherLasts
    have notLasting := ended other (by simpa using member)
    rw [lasts_of_duration otherLasts] at notLasting
    simpa using notLasting

/-- A waveform that lasts and has a series ends at one value, if its end is known exactly. -/
theorem ends_at_of_lowers (waveform : Waveform) (series : LinearSeries)
    (precise : ExactEnd bindings waveform) (lowers : Lowers bindings waveform series)
    (positive : 0 < series.duration) : ∃ value, EndsAt bindings waveform value := by
  induction waveform using Waveform.parts_induction generalizing series with
  | constant level duration =>
      obtain ⟨length, number, durationOk, nonneg, levelOk, rfl⟩ :=
        (constant_lowers_iff _ _ _).1 lowers
      rw [(line_spans nonneg).lasts] at positive
      refine ⟨number, leaf_ends_at positive lowers
        ((constant_outlines_iff _ _ _).2 ⟨length, durationOk, nonneg, rfl⟩)
        (fun meaning means => ?_) levelOk⟩
      rw [signal, (leaf_duration_ok_iff _ _ _).2 ⟨durationOk, nonneg⟩, Outcome.ok_bind,
        Outcome.pure_ok_iff] at means
      rw [← means, Signal.within_inside positive.le le_rfl, levelOk]
  | ramp start stop duration =>
      obtain ⟨length, first, last, durationOk, nonneg, startOk, stopOk, rfl⟩ :=
        (ramp_lowers_iff _ _ _ _).1 lowers
      rw [(line_spans nonneg).lasts] at positive
      refine ⟨last, leaf_ends_at positive lowers
        ((ramp_outlines_iff _ _ _ _).2 ⟨length, durationOk, nonneg, rfl⟩)
        (fun meaning means => ?_) stopOk⟩
      rw [signal, (leaf_duration_ok_iff _ _ _).2 ⟨durationOk, nonneg⟩, Outcome.ok_bind,
        Outcome.pure_ok_iff] at means
      have digits := precise.rises start stop duration (by simp [nodes]) first last startOk stopOk
      rw [← means, startOk, stopOk, Signal.line_end positive digits]
  | poly coefficients duration =>
      obtain ⟨length, values, durationOk, nonneg, valuesOk, low, rfl⟩ :=
        (poly_lowers_iff _ _ _).1 lowers
      rw [(line_spans nonneg).lasts] at positive
      refine ⟨_, leaf_ends_at positive lowers ((poly_outlines_iff _ _ _).2
        ⟨length, values, durationOk, nonneg, valuesOk, low, rfl⟩) (fun meaning means => ?_)
        (polynomial_eval durationOk valuesOk)⟩
      rw [signal, (leaf_duration_ok_iff _ _ _).2 ⟨durationOk, nonneg⟩, Outcome.ok_bind,
        Outcome.pure_ok_iff] at means
      rw [← means, Signal.within_inside positive.le le_rfl, valuesOk]
      rfl
  | native name function duration parameters => exact absurd lowers (native_not_lowers _ _ _ _ _)
  | negative inner ih =>
      obtain ⟨innerSeries, innerLowers, rfl⟩ := (negative_lowers_iff _ _).1 lowers
      have innerExact : ExactEnd bindings inner :=
        precise.child (by simp [children]) (by simp [exposed])
      have spans := map_spans (-·) (spans_of_lowers innerExact.filled innerLowers)
      rw [spans.lasts] at positive
      obtain ⟨value, ends⟩ := ih innerSeries innerExact innerLowers positive
      exact ⟨-value, negative_ends_at innerExact.filled ends⟩
  | add left right leftIh rightIh =>
      obtain ⟨leftSeries, rightSeries, leftLowers, rightLowers, summed⟩ :=
        (add_lowers_iff _ _ _).1 lowers
      have leftExact : ExactEnd bindings left :=
        precise.child (by simp [children]) (by simp [exposed])
      have rightExact : ExactEnd bindings right :=
        precise.child (by simp [children]) (by simp [exposed])
      have leftSpans := spans_of_lowers leftExact.filled leftLowers
      have rightSpans := spans_of_lowers rightExact.filled rightLowers
      obtain ⟨_, rfl⟩ := (plus_ok_iff leftSpans rightSpans series).1 summed
      rw [(plus_spans leftSpans rightSpans).lasts] at positive
      -- An operand counts at the end only if it lasts as long as the sum does.
      obtain ⟨leftValue, leftEnds⟩ : ∃ value, rightSeries.duration ≤ leftSeries.duration →
          EndsAt bindings left value := counted_ends_at fun longer =>
        leftIh leftSeries leftExact leftLowers (by rwa [max_eq_left longer] at positive)
      obtain ⟨rightValue, rightEnds⟩ : ∃ value, leftSeries.duration ≤ rightSeries.duration →
          EndsAt bindings right value := counted_ends_at fun longer =>
        rightIh rightSeries rightExact rightLowers (by rwa [max_eq_right longer] at positive)
      exact ⟨_, add_ends_at leftExact.filled rightExact.filled
        (duration_of_lowers leftExact.filled leftLowers)
        (duration_of_lowers rightExact.filled rightLowers) leftEnds rightEnds⟩
  | scale factor inner ih =>
      obtain ⟨innerSeries, number, innerLowers, factorOk, rfl⟩ := (scale_lowers_iff _ _ _).1 lowers
      have innerExact : ExactEnd bindings inner :=
        precise.child (by simp [children]) (by simp [exposed])
      have spans := map_spans (number * ·) (spans_of_lowers innerExact.filled innerLowers)
      rw [spans.lasts] at positive
      obtain ⟨value, ends⟩ := ih innerSeries innerExact innerLowers positive
      exact ⟨number * value, scale_ends_at innerExact.filled factorOk ends⟩
  | slice inner interval ih =>
      rcases precise.cuts inner interval (self_mem_exposed _) with whole | known
      · obtain ⟨innerSeries, lower, upper, innerLowers, bounds, sliced⟩ :=
          (slice_lowers_iff _ _ _).1 lowers
        have innerExact : ExactEnd bindings inner :=
          precise.child (by simp [children]) (by simp [exposed])
        have innerSpans := spans_of_lowers innerExact.filled innerLowers
        obtain ⟨⟨lowerNonneg, _, upperWithin⟩, _⟩ := (slice_ok_iff lower upper).1 sliced
        rw [(slice_spans innerSpans.formed sliced).lasts, sub_pos] at positive
        obtain ⟨value, ends⟩ := ih innerSeries innerExact innerLowers
          (lowerNonneg.trans_lt (positive.trans_le upperWithin))
        exact ⟨value, slice_ends_at innerExact.filled whole ends⟩
      · exact known
  | append parts ih =>
      have known := duration_of_lowers precise.filled lowers
      obtain ⟨before, part, after, rfl, lasting, empty⟩ := exists_last_lasting known positive
      have member : part ∈ before ++ part :: after := by simp
      obtain ⟨first, rest, _, _, same, firstLowers, restLower, _⟩ :=
        (append_lowers_iff _ precise.filled _).1 lowers
      have allLower := List.Forall₂.cons firstLowers restLower
      rw [← same] at allLower
      obtain ⟨partSeries, _, partLowers⟩ := Outcome.target_of_mem allLower member
      have partLasts := duration_of_lowers (precise.part member).filled partLowers
      obtain ⟨value, ends⟩ := ih part member partSeries (precise.part member) partLowers
        (positive_of_lasts lasting partLasts)
      exact ⟨value, append_ends_at precise.filled (fun _ => positive_of_lasts lasting) empty ends⟩
  | record name inner side ih =>
      have innerExact : ExactEnd bindings inner :=
        precise.child (by simp [children]) (by simp [exposed])
      obtain ⟨value, ends⟩ := ih series innerExact lowers positive
      refine ⟨value, ends.evaluated, ends.interpolated, fun outlined outlines => ?_⟩
      obtain ⟨innerOutlined, innerOutlines, rfl⟩ := (record_outlines_iff _ _ _ _).1 outlines
      exact ends.outlined innerOutlined innerOutlines
  | sample inner step interpolation =>
      exact ⟨_, sample_ends_at (precise.rises.child (by simp [children]))
        (((each_node_iff _ _).1 precise.tidied).2 inner (by simp [children])) lowers positive⟩
  | smooth inner radius kernel => exact absurd lowers (smooth_not_lowers _ _ _ _)
  | aligned inner alignment fill ih =>
      have innerExact : ExactEnd bindings inner :=
        precise.child (by simp [children]) (by simp [exposed])
      obtain ⟨value, ends⟩ := ih series innerExact lowers positive
      refine ⟨value, ends.evaluated, ends.interpolated, fun outlined outlines => ?_⟩
      obtain ⟨innerOutlined, innerOutlines, rfl⟩ := (aligned_outlines_iff _ _ _ _).1 outlines
      exact ends.outlined innerOutlined innerOutlines

end Waveform

end Analog
