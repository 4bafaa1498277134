import Analog.Proofs.Evaluation
import Analog.Proofs.SignalRefinement
import Analog.Waveform.Builtin

/-!
# The values that waveforms take

That a waveform takes a value at a time is said by rules, one or two for each way of building
waveforms, without a word on how values are computed. The evaluator, which never goes into
a waveform by recursion but works terms off a list, finds exactly the values that the rules
give.
-/

set_option autoImplicit false

namespace Analog.Signal

variable {time : Decimal}

theorem value_inside {duration : Decimal} {inside : Decimal → Outcome Decimal}
    (covered : 0 ≤ time ∧ time ≤ (within duration inside).duration) :
    (within duration inside).value time = inside time :=
  within_inside covered.1 covered.2

/-- A part that is not empty covers the times from its start to its end, without the end unless
nothing but empty parts follow. -/
theorem sequence_value_part (before after : List Signal) (part : Signal)
    (bounded : ∀ other ∈ before, Bounded other) (positive : 0 < part.duration)
    (started : totalDuration before ≤ time)
    (covered : time < totalDuration before + part.duration ∨
      time = totalDuration before + part.duration ∧ ∀ other ∈ after, other.duration = 0) :
    sequenceValue (before ++ part :: after) time = part.value (time - totalDuration before) := by
  have notEmpty : part.duration.isZero = false :=
    (Decimal.is_zero_false_iff _).2 positive.ne'
  have notAll : (part :: after).all (·.duration.isZero) = false := by
    rw [List.all_cons, notEmpty, Bool.false_and]
  rw [sequence_value_after before (part :: after) bounded notAll started]
  unfold sequenceValue
  rw [if_neg (by rw [notEmpty]; simp)]
  rcases covered with inside | ⟨ended, empty⟩
  · rw [if_pos (by linarith)]
  · have last : time - totalDuration before = part.duration := by rw [ended]; ring
    have allEmpty : after.all (·.duration.isZero) = true := by
      simpa using empty
    rw [last, allEmpty, if_neg (lt_irrefl _), if_pos (by simp)]

/-- Every time up to the end of some signals is covered by one of them, unless all are empty. -/
theorem exists_covering_part (parts : List Signal) (nonneg : 0 ≤ time)
    (reached : time ≤ totalDuration parts) (bounded : ∀ part ∈ parts, Bounded part) :
    (∀ part ∈ parts, part.duration = 0) ∨
      ∃ before part after, parts = before ++ part :: after ∧ 0 < part.duration ∧
        totalDuration before ≤ time ∧
        (time < totalDuration before + part.duration ∨
          time = totalDuration before + part.duration ∧ ∀ other ∈ after, other.duration = 0) := by
  induction parts generalizing time with
  | nil => exact Or.inl (by simp)
  | cons first rest ih =>
      have restBounded : ∀ part ∈ rest, Bounded part :=
        fun part member => bounded part (by simp [member])
      rw [total_duration_cons] at reached
      by_cases early : time < first.duration
      · right
        refine ⟨[], first, rest, rfl, lt_of_le_of_lt nonneg early, nonneg, Or.inl ?_⟩
        rwa [total_duration_nil, zero_add]
      rw [not_lt] at early
      rcases ih (sub_nonneg.2 early) (by linarith) restBounded with
        empty | ⟨before, part, after, rfl, positive, started, covered⟩
      · rcases (bounded first (by simp)).nonneg.eq_or_lt with firstEmpty | firstPositive
        · left
          intro part member
          rcases List.mem_cons.1 member with rfl | later
          · exact firstEmpty.symm
          · exact empty part later
        · -- Nothing follows the first part, so the time is its end.
          right
          have restEmpty : totalDuration rest = 0 :=
            (total_duration_zero_iff rest restBounded).2 (by simpa using empty)
          refine ⟨[], first, rest, rfl, firstPositive, nonneg, Or.inr ⟨?_, empty⟩⟩
          rw [total_duration_nil, zero_add]
          linarith
      · right
        refine ⟨first :: before, part, after, rfl, positive, ?_, ?_⟩
        · rw [total_duration_cons]
          linarith
        · rw [total_duration_cons]
          rcases covered with inside | ⟨ended, empty⟩
          · exact Or.inl (by linarith)
          · exact Or.inr ⟨by linarith, empty⟩

end Analog.Signal

namespace Analog.Waveform

open Signal

variable [Natives] {bindings : ScalarBindings}

def Covers (bindings : ScalarBindings) (waveform : Waveform) (time : Decimal) : Prop :=
  ∃ length, waveform.duration bindings = .ok length ∧ 0 ≤ time ∧ time ≤ length

/-- The value that a waveform takes at a time. Samples and smoothings are computed from some
heights, each of which is a value of the waveform inside. -/
inductive Takes (bindings : ScalarBindings) : Waveform → Decimal → Decimal → Prop where
  | outside {waveform : Waveform} {length time : Decimal} :
      waveform.duration bindings = .ok length → time < 0 ∨ length < time →
      Takes bindings waveform time 0
  | constant {value duration : Scalar} {time number : Decimal} :
      Covers bindings (.constant value duration) time → value.eval bindings = .ok number →
      Takes bindings (.constant value duration) time number
  | point {start stop duration : Scalar} {time first last : Decimal} :
      Covers bindings (.ramp start stop duration) time →
      (Waveform.ramp start stop duration).duration bindings = .ok 0 →
      start.eval bindings = .ok first → stop.eval bindings = .ok last →
      Takes bindings (.ramp start stop duration) time first
  | ramp {start stop duration : Scalar} {time length first last number : Decimal} :
      Covers bindings (.ramp start stop duration) time →
      (Waveform.ramp start stop duration).duration bindings = .ok length → length ≠ 0 →
      start.eval bindings = .ok first → stop.eval bindings = .ok last →
      Breakpoints.between 0 first length last time = .ok number →
      Takes bindings (.ramp start stop duration) time number
  | poly {coefficients : List Scalar} {duration : Scalar} {time : Decimal}
      {numbers : List Decimal} :
      Covers bindings (.poly coefficients duration) time →
      Scalar.evalAll bindings coefficients = .ok numbers →
      Takes bindings (.poly coefficients duration) time (polynomialValue numbers time)
  | native {name function : String} {duration : Scalar} {parameters : List Scalar}
      {time number : Decimal} {numbers : List Decimal} :
      Covers bindings (.native name function duration parameters) time →
      Scalar.evalAll bindings parameters = .ok numbers →
      Natives.run function time numbers = .ok number →
      Takes bindings (.native name function duration parameters) time number
  | negative {inner : Waveform} {time number : Decimal} :
      Covers bindings (.negative inner) time → Takes bindings inner time number →
      Takes bindings (.negative inner) time (-number)
  | add {left right : Waveform} {time leftNumber rightNumber : Decimal} :
      Covers bindings (.add left right) time →
      Takes bindings left time leftNumber → Takes bindings right time rightNumber →
      Takes bindings (.add left right) time (leftNumber + rightNumber)
  | scale {factor : Scalar} {inner : Waveform} {time factorNumber number : Decimal} :
      Covers bindings (.scale factor inner) time → factor.eval bindings = .ok factorNumber →
      Takes bindings inner time number →
      Takes bindings (.scale factor inner) time (factorNumber * number)
  | slice {inner : Waveform} {interval : Interval} {time number : Decimal}
      {start : Option Decimal} :
      Covers bindings (.slice inner interval) time →
      Scalar.evalBound bindings interval.start = .ok start →
      Takes bindings inner (time + start.getD 0) number →
      Takes bindings (.slice inner interval) time number
  | append {before after : List Waveform} {part : Waveform} {time start length number : Decimal} :
      Covers bindings (.append (before ++ part :: after)) time →
      (Waveform.append before).duration bindings = .ok start →
      part.duration bindings = .ok length → 0 < length → start ≤ time →
      (time < start + length ∨
        time = start + length ∧ ∀ other ∈ after, other.duration bindings = .ok 0) →
      Takes bindings part (time - start) number →
      Takes bindings (.append (before ++ part :: after)) time number
  | empty {parts : List Waveform} {time : Decimal} :
      Covers bindings (.append parts) time → (∀ part ∈ parts, part.duration bindings = .ok 0) →
      Takes bindings (.append parts) time 0
  | record {name : String} {inner : Waveform} {side : Side} {time number : Decimal} :
      Takes bindings inner time number → Takes bindings (.record name inner side) time number
  | sample {inner : Waveform} {step : Scalar} {interpolation : Interpolation}
      {time length number : Decimal} {heights : Decimal → Outcome Decimal}
      {subject : Unit → String} {points : SamplePoints} :
      Covers bindings (.sample inner step interpolation) time →
      inner.duration bindings = .ok length →
      (∀ moment height, heights moment = .ok height → Takes bindings inner moment height) →
      samplePoints subject ⟨length, heights⟩ (step.eval bindings) interpolation = .ok points →
      sampledValue interpolation points time = .ok number →
      Takes bindings (.sample inner step interpolation) time number
  | smooth {inner : Waveform} {radius : Scalar} {kernel : Kernel}
      {time length radiusNumber number : Decimal} {heights : Decimal → Outcome Decimal} :
      Covers bindings (.smooth inner radius kernel) time →
      inner.duration bindings = .ok length →
      radius.eval bindings = .ok radiusNumber → 0 < radiusNumber →
      (∀ moment height, heights moment = .ok height → Takes bindings inner moment height) →
      Smoothing.valueAt kernel radiusNumber length heights time = .ok number →
      Takes bindings (.smooth inner radius kernel) time number
  | rough {inner : Waveform} {radius : Scalar} {kernel : Kernel}
      {time radiusNumber number : Decimal} :
      Covers bindings (.smooth inner radius kernel) time →
      radius.eval bindings = .ok radiusNumber → radiusNumber ≤ 0 →
      Takes bindings inner time number → Takes bindings (.smooth inner radius kernel) time number
  | aligned {inner : Waveform} {alignment : Side} {fill : FillValue} {time number : Decimal} :
      Takes bindings inner time number → Takes bindings (.aligned inner alignment fill) time number

theorem covers_iff {waveform : Waveform} {meaning : Signal} {time : Decimal}
    (means : waveform.signal bindings = .ok meaning) :
    Covers bindings waveform time ↔ 0 ≤ time ∧ time ≤ meaning.duration := by
  unfold Covers
  rw [duration_of_signal means]
  simp

/-- The meanings of the parts of waveforms one after the other. -/
theorem append_signal_iff {parts : List Waveform} {meaning : Signal} :
    (Waveform.append parts).signal bindings = .ok meaning ↔
      ∃ meanings, List.Forall₂ (fun part found => signal bindings part = .ok found) parts meanings ∧
        concatenate meanings = meaning := by
  rw [signal, Outcome.return_ok_iff]
  simp only [signals_ok_iff]

/-- What the rules give is the value of the meaning. The induction is on the rules. -/
theorem value_of_takes {waveform : Waveform} {time number : Decimal}
    (takes : Takes bindings waveform time number) :
    ∀ meaning, waveform.signal bindings = .ok meaning → meaning.value time = .ok number := by
  induction takes with
  | @outside waveform length time lasts beyond =>
      intro meaning means
      rw [duration_of_signal means, Except.ok.injEq] at lasts
      exact (signal_bounded bindings waveform meaning means).silent time (by rwa [lasts])
  | constant covers evaluates =>
      intro meaning means
      have inside := (covers_iff means).1 covers
      rcases (Outcome.return_ok_iff _ _ _).1 means with ⟨length, _, rfl⟩
      rw [value_inside inside, evaluates]
  | point covers lasts starts stops =>
      intro meaning means
      have inside := (covers_iff means).1 covers
      rw [duration_of_signal means, Except.ok.injEq] at lasts
      rcases (Outcome.return_ok_iff _ _ _).1 means with ⟨length, _, rfl⟩
      have empty : length = 0 := lasts
      unfold line
      rw [value_inside inside, starts, stops, Outcome.ok_bind, Outcome.ok_bind,
        if_pos (by simpa using empty)]
      rfl
  | ramp covers lasts notZero starts stops joins =>
      intro meaning means
      have inside := (covers_iff means).1 covers
      rw [duration_of_signal means, Except.ok.injEq] at lasts
      rcases (Outcome.return_ok_iff _ _ _).1 means with ⟨length, _, rfl⟩
      rw [← lasts] at notZero joins
      have notEmpty : ¬length.isZero = true := by
        rw [Decimal.is_zero_iff]
        exact notZero
      unfold line
      rw [value_inside inside, starts, stops, Outcome.ok_bind, Outcome.ok_bind,
        if_neg notEmpty]
      exact joins
  | poly covers evaluates =>
      intro meaning means
      have inside := (covers_iff means).1 covers
      rcases (Outcome.return_ok_iff _ _ _).1 means with ⟨length, _, rfl⟩
      rw [value_inside inside, evaluates]
      rfl
  | native covers evaluates runs =>
      intro meaning means
      have inside := (covers_iff means).1 covers
      rcases (Outcome.return_ok_iff _ _ _).1 means with ⟨length, _, rfl⟩
      rw [value_inside inside, evaluates, Outcome.ok_bind, runs]
  | negative covers _ ih =>
      intro meaning means
      have inside := (covers_iff means).1 covers
      rcases (Outcome.return_ok_iff _ _ _).1 means with ⟨inner, innerMeans, rfl⟩
      unfold negate
      rw [value_inside inside, ih inner innerMeans]
      rfl
  | add covers _ _ leftIh rightIh =>
      intro meaning means
      have inside := (covers_iff means).1 covers
      rcases (Outcome.bind_ok_iff _ _ _).1 means with ⟨left, leftMeans, rest⟩
      rcases (Outcome.return_ok_iff _ _ _).1 rest with ⟨right, rightMeans, rfl⟩
      unfold plus
      rw [value_inside inside, rightIh right rightMeans, Outcome.ok_bind,
        leftIh left leftMeans]
      rfl
  | scale covers evaluates _ ih =>
      intro meaning means
      have inside := (covers_iff means).1 covers
      rcases (Outcome.return_ok_iff _ _ _).1 means with ⟨inner, innerMeans, rfl⟩
      unfold scaled
      rw [value_inside inside, evaluates, Outcome.ok_bind, ih inner innerMeans]
      rfl
  | slice covers starts _ ih =>
      intro meaning means
      have inside := (covers_iff means).1 covers
      rcases (Outcome.bind_ok_iff _ _ _).1 means with ⟨inner, innerMeans, rest⟩
      rcases (Outcome.return_ok_iff _ _ _).1 rest with ⟨⟨lower, upper⟩, bounds, rfl⟩
      rcases (slice_bounds_ok_iff _ _ _ _ _ _).1 bounds with
        ⟨start, _, startOk, _, rfl, _, _, _, _⟩
      rw [starts, Except.ok.injEq] at startOk
      subst startOk
      unfold cut
      rw [value_inside inside]
      exact ih inner innerMeans
  | append covers starts lasts positive started covered _ ih =>
      intro meaning means
      have inside := (covers_iff means).1 covers
      rcases append_signal_iff.1 means with ⟨meanings, each, rfl⟩
      rcases Outcome.related_append each with ⟨earlier, later, rfl, beforeMean, rest⟩
      cases rest with
      | @cons _ part _ after partMeans afterMean =>
          -- Durations and emptiness are read off the meanings.
          have sameStart := duration_of_signal (append_signal_iff.2 ⟨earlier, beforeMean, rfl⟩)
          rw [starts, Except.ok.injEq] at sameStart
          rw [duration_of_signal partMeans, Except.ok.injEq] at lasts
          have beforeBounded : ∀ other ∈ earlier, Bounded other := fun other member => by
            rcases Outcome.source_of_mem beforeMean member with ⟨source, _, sourceMeans⟩
            exact signal_bounded bindings source other sourceMeans
          subst sameStart lasts
          unfold concatenate
          rw [value_inside inside,
            sequence_value_part earlier after part beforeBounded positive started]
          · exact ih part partMeans
          · apply covered.imp_right
            rintro ⟨ended, empty⟩
            refine ⟨ended, fun other member => ?_⟩
            rcases Outcome.source_of_mem afterMean member with ⟨source, sourceMember, sourceMeans⟩
            have lasts := empty source sourceMember
            rwa [duration_of_signal sourceMeans, Except.ok.injEq] at lasts
  | empty covers allEmpty =>
      intro meaning means
      have inside := (covers_iff means).1 covers
      rcases append_signal_iff.1 means with ⟨meanings, each, rfl⟩
      unfold concatenate
      rw [value_inside inside]
      apply sequence_value_all_empty
      rw [List.all_eq_true]
      intro part member
      rcases Outcome.source_of_mem each member with ⟨source, sourceMember, sourceMeans⟩
      have lasts := allEmpty source sourceMember
      rw [duration_of_signal sourceMeans, Except.ok.injEq] at lasts
      simpa using lasts
  | record _ ih => exact ih
  | @sample inner step interpolation time length number heights subject points covers lasts _
      found interpolated ih =>
      intro meaning means
      have inside := (covers_iff means).1 covers
      rcases (Outcome.return_ok_iff _ _ _).1 means with ⟨innerMeaning, innerMeans, rfl⟩
      rw [duration_of_signal innerMeans, Except.ok.injEq] at lasts
      have refines : Refines ⟨length, heights⟩ innerMeaning :=
        ⟨lasts, fun moment height known => ih moment height known innerMeaning innerMeans⟩
      unfold sampled
      rw [value_inside inside,
        refines.sample_points (fun _ same => same) found, Outcome.ok_bind, interpolated]
  | @smooth inner radius kernel time length radiusNumber number heights covers lasts evaluates
      positive _ smoothed ih =>
      intro meaning means
      have inside := (covers_iff means).1 covers
      rcases (Outcome.return_ok_iff _ _ _).1 means with ⟨innerMeaning, innerMeans, rfl⟩
      rw [duration_of_signal innerMeans, Except.ok.injEq] at lasts
      have refines : Refines ⟨length, heights⟩ innerMeaning :=
        ⟨lasts, fun moment height known => ih moment height known innerMeaning innerMeans⟩
      unfold Signal.smoothed
      rw [value_inside inside, evaluates, Outcome.ok_bind,
        if_pos ((Decimal.is_positive_iff _).2 positive), lasts]
      exact refines.smoothing smoothed
  | rough covers evaluates flat _ ih =>
      intro meaning means
      have inside := (covers_iff means).1 covers
      rcases (Outcome.return_ok_iff _ _ _).1 means with ⟨innerMeaning, innerMeans, rfl⟩
      unfold smoothed
      rw [value_inside inside, evaluates, Outcome.ok_bind,
        if_neg (by simpa using flat)]
      exact ih innerMeaning innerMeans
  | aligned _ ih => exact ih

/-- Outside of its duration there is a rule for every waveform, so only times within it matter. -/
theorem takes_of_covered {waveform : Waveform} {meaning : Signal} {time number : Decimal}
    (means : waveform.signal bindings = .ok meaning) (found : meaning.value time = .ok number)
    (inside : Covers bindings waveform time → 0 ≤ time ∧ time ≤ meaning.duration →
      Takes bindings waveform time number) : Takes bindings waveform time number := by
  by_cases beyond : time < 0 ∨ meaning.duration < time
  · rw [(signal_bounded bindings waveform meaning means).silent time beyond,
      Except.ok.injEq] at found
    rw [← found]
    exact .outside (duration_of_signal means) beyond
  · rw [not_or, not_lt, not_lt] at beyond
    exact inside ((covers_iff means).2 beyond) beyond

theorem takes_of_value (waveform : Waveform) (meaning : Signal)
    (means : waveform.signal bindings = .ok meaning) (time number : Decimal)
    (found : meaning.value time = .ok number) : Takes bindings waveform time number := by
  induction waveform using Waveform.parts_induction generalizing meaning time number with
  | constant value duration =>
      apply takes_of_covered means found
      intro covers inside
      rcases (Outcome.return_ok_iff _ _ _).1 means with ⟨length, _, rfl⟩
      rw [value_inside inside] at found
      exact .constant covers found
  | ramp start stop duration =>
      apply takes_of_covered means found
      intro covers inside
      have lasts := duration_of_signal means
      rcases (Outcome.return_ok_iff _ _ _).1 means with ⟨length, _, rfl⟩
      unfold line at found inside lasts
      rw [value_inside inside, Outcome.bind_ok_iff] at found
      rcases found with ⟨first, starts, rest⟩
      rcases (Outcome.bind_ok_iff _ _ _).1 rest with ⟨last, stops, joins⟩
      split_ifs at joins with empty
      · rw [Outcome.pure_ok_iff] at joins
        rw [Decimal.is_zero_iff] at empty
        rw [duration_within, empty] at lasts
        rw [← joins]
        exact .point covers lasts starts stops
      · rw [Decimal.is_zero_iff] at empty
        exact .ramp covers lasts empty starts stops joins
  | poly coefficients duration =>
      apply takes_of_covered means found
      intro covers inside
      rcases (Outcome.return_ok_iff _ _ _).1 means with ⟨length, _, rfl⟩
      rw [value_inside inside, Outcome.return_ok_iff] at found
      rcases found with ⟨numbers, evaluates, rfl⟩
      exact .poly covers evaluates
  | native name function duration parameters =>
      apply takes_of_covered means found
      intro covers inside
      rcases (Outcome.return_ok_iff _ _ _).1 means with ⟨length, _, rfl⟩
      rw [value_inside inside, Outcome.bind_ok_iff] at found
      rcases found with ⟨numbers, evaluates, runs⟩
      exact .native covers evaluates runs
  | negative inner ih =>
      apply takes_of_covered means found
      intro covers inside
      rcases (Outcome.return_ok_iff _ _ _).1 means with ⟨innerMeaning, innerMeans, rfl⟩
      unfold negate at found inside
      rw [value_inside inside, Outcome.return_ok_iff] at found
      rcases found with ⟨value, valueOk, rfl⟩
      exact .negative covers (ih innerMeaning innerMeans time value valueOk)
  | add left right leftIh rightIh =>
      apply takes_of_covered means found
      intro covers inside
      rcases (Outcome.bind_ok_iff _ _ _).1 means with ⟨leftMeaning, leftMeans, rest⟩
      rcases (Outcome.return_ok_iff _ _ _).1 rest with ⟨rightMeaning, rightMeans, rfl⟩
      unfold plus at found inside
      rw [value_inside inside, Outcome.bind_ok_iff] at found
      rcases found with ⟨rightValue, rightOk, added⟩
      rcases (Outcome.return_ok_iff _ _ _).1 added with ⟨leftValue, leftOk, rfl⟩
      exact .add covers (leftIh leftMeaning leftMeans time leftValue leftOk)
        (rightIh rightMeaning rightMeans time rightValue rightOk)
  | scale factor inner ih =>
      apply takes_of_covered means found
      intro covers inside
      rcases (Outcome.return_ok_iff _ _ _).1 means with ⟨innerMeaning, innerMeans, rfl⟩
      unfold scaled at found inside
      rw [value_inside inside, Outcome.bind_ok_iff] at found
      rcases found with ⟨factorValue, evaluates, scales⟩
      rcases (Outcome.return_ok_iff _ _ _).1 scales with ⟨value, valueOk, rfl⟩
      exact .scale covers evaluates (ih innerMeaning innerMeans time value valueOk)
  | slice inner interval ih =>
      apply takes_of_covered means found
      intro covers inside
      rcases (Outcome.bind_ok_iff _ _ _).1 means with ⟨innerMeaning, innerMeans, rest⟩
      rcases (Outcome.return_ok_iff _ _ _).1 rest with ⟨⟨lower, upper⟩, bounds, rfl⟩
      rcases (slice_bounds_ok_iff _ _ _ _ _ _).1 bounds with ⟨start, _, startOk, _, rfl, _⟩
      unfold cut at found inside
      rw [value_inside inside] at found
      exact .slice covers startOk (ih innerMeaning innerMeans _ number found)
  | append parts ih =>
      apply takes_of_covered means found
      intro covers inside
      rcases append_signal_iff.1 means with ⟨meanings, each, rfl⟩
      have bounded : ∀ part ∈ meanings, Bounded part := fun part member => by
        rcases Outcome.source_of_mem each member with ⟨source, _, sourceMeans⟩
        exact signal_bounded bindings source part sourceMeans
      unfold concatenate at found inside
      rw [value_inside inside] at found
      rcases exists_covering_part meanings inside.1 inside.2 bounded with
        allEmpty | ⟨before, part, after, rfl, positive, started, covered⟩
      · rw [sequence_value_all_empty meanings (by simpa using allEmpty), Except.ok.injEq] at found
        rw [← found]
        apply Takes.empty covers
        intro part member
        rcases Outcome.target_of_mem each member with ⟨partMeaning, meaningMember, partMeans⟩
        rw [duration_of_signal partMeans, allEmpty partMeaning meaningMember]
      · rw [sequence_value_part before after part
          (fun other member => bounded other (by simp [member])) positive started covered] at found
        rcases Outcome.related_append each.flip with ⟨earlier, later, rfl, beforeMean, rest⟩
        cases rest with
        | @cons _ source _ others partMeans afterMean =>
            apply Takes.append covers
              (duration_of_signal (append_signal_iff.2 ⟨before, beforeMean.flip, rfl⟩))
              (duration_of_signal partMeans) positive started
            · apply covered.imp_right
              rintro ⟨ended, empty⟩
              refine ⟨ended, fun other member => ?_⟩
              rcases Outcome.source_of_mem afterMean member with ⟨meaning, meaningMember, means⟩
              rw [duration_of_signal means, empty meaning meaningMember]
            · exact ih source (by simp) part partMeans _ number found
  | record name inner side ih => exact .record (ih meaning means time number found)
  | sample inner step interpolation ih =>
      apply takes_of_covered means found
      intro covers inside
      rcases (Outcome.return_ok_iff _ _ _).1 means with ⟨innerMeaning, innerMeans, rfl⟩
      unfold sampled at found inside
      rw [value_inside inside, Outcome.bind_ok_iff] at found
      rcases found with ⟨points, pointsOk, interpolated⟩
      exact .sample covers (duration_of_signal innerMeans)
        (fun moment height => ih innerMeaning innerMeans moment height) pointsOk interpolated
  | smooth inner radius kernel ih =>
      apply takes_of_covered means found
      intro covers inside
      rcases (Outcome.return_ok_iff _ _ _).1 means with ⟨innerMeaning, innerMeans, rfl⟩
      unfold smoothed at found inside
      rw [value_inside inside, Outcome.bind_ok_iff] at found
      rcases found with ⟨radiusValue, evaluates, rest⟩
      split_ifs at rest with positive
      · exact .smooth covers (duration_of_signal innerMeans) evaluates
          ((Decimal.is_positive_iff _).1 positive)
          (fun moment height => ih innerMeaning innerMeans moment height) rest
      · exact .rough covers evaluates (by simpa using positive)
          (ih innerMeaning innerMeans time number rest)
  | aligned inner alignment fill ih => exact .aligned (ih meaning means time number found)

theorem value_at_iff_takes {waveform : Waveform} {length : Decimal}
    (lasts : waveform.duration bindings = .ok length) (time number : Decimal) :
    waveform.valueAt bindings time = .ok number ↔ Takes bindings waveform time number := by
  rcases signal_of_duration lasts with ⟨meaning, means, _⟩
  unfold valueAt
  rw [means, Outcome.ok_bind]
  constructor
  · exact takes_of_value waveform meaning means time number
  · intro takes
    exact value_of_takes takes meaning means

end Analog.Waveform

namespace Analog.Evaluator

open Waveform

/-- Once all durations are known, the evaluator finds a value at a time exactly if the rules give
it to the waveform. -/
theorem finds_iff_takes [Natives] (bindings : ScalarBindings) (waveform : Waveform)
    (evaluator : Evaluator) (made : of bindings waveform = .ok evaluator)
    (time number : Decimal) :
    evaluator.valueAt time = .ok number ↔ Takes bindings waveform time number := by
  rcases of_ok_iff.1 ⟨evaluator, made⟩ with ⟨length, lasts⟩
  rw [value_at_eq made, value_at_iff_takes lasts]

/-- An empty part, a slice of a sum whose second operand ends early, and a sample of an append,
turned around, scaled and followed by an empty part. -/
def joinedParts : Waveform :=
  .append [.constant (.literal 9) (.literal 0),
    .slice (.add (.ramp (.literal 0) (.literal 4) (.literal 4))
      (.negative (.constant (.literal 1) (.literal 2)))) ⟨some (.literal 1), some (.literal 3)⟩,
    .scale (.variable "x") (.negative (.sample
      (.append [.ramp (.literal 0) (.literal 1) (.literal 1), .constant (.literal 5) (.literal 1)])
      (.literal 1) .constant)),
    .constant (.literal 7) (.literal 0)]

theorem finds_iff_takes_joined_parts :
    let given : ScalarBindings := .ofList [("x", 3)]
    ∃ evaluator, of given joinedParts = .ok evaluator ∧
      Takes given joinedParts (.ofScaled 15 1) (.ofScaled 25 1) ∧
      evaluator.valueAt 4 = .ok (-15) ∧ Takes given joinedParts 4 (-15) := by
  intro given
  have made : ∃ evaluator, of given joinedParts = .ok evaluator := by decide
  rcases made with ⟨evaluator, made⟩
  have early : evaluator.valueAt (.ofScaled 15 1) = .ok (.ofScaled 25 1) := by
    rw [value_at_eq made]
    decide
  have late : evaluator.valueAt 4 = .ok (-15) := by
    rw [value_at_eq made]
    decide
  exact ⟨evaluator, made, (finds_iff_takes given joinedParts evaluator made _ _).1 early, late,
    (finds_iff_takes given joinedParts evaluator made _ _).1 late⟩

end Analog.Evaluator
