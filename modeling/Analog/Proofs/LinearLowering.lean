import Analog.Proofs.LinearFunctions
import Analog.Proofs.Signals

/-!
# Linear lowering

One rule for each way of building waveforms says when a waveform has a linear series, and
which. A waveform with a series has a meaning of the same duration, and a value at every
time.
-/

set_option autoImplicit false

namespace Analog.Signal

def Total (meaning : Signal) : Prop :=
  ∀ time, ∃ value, meaning.value time = .ok value

variable {duration : Decimal} {inside : Decimal → Outcome Decimal} {meaning left right : Signal}

theorem within_total (each : ∀ time, ∃ value, inside time = .ok value) :
    Total (within duration inside) := by
  intro time
  unfold within
  dsimp only
  split_ifs
  · exact ⟨0, rfl⟩
  · exact each time

theorem negate_total (total : Total meaning) : Total meaning.negate := by
  apply within_total
  intro time
  obtain ⟨value, valueOk⟩ := total time
  exact ⟨-value, by rw [valueOk]; rfl⟩

theorem plus_total (leftTotal : Total left) (rightTotal : Total right) :
    Total (left.plus right) := by
  apply within_total
  intro time
  obtain ⟨first, firstOk⟩ := leftTotal time
  obtain ⟨second, secondOk⟩ := rightTotal time
  exact ⟨first + second, by rw [firstOk, secondOk]; rfl⟩

theorem scaled_total (factor : Decimal) (total : Total meaning) :
    Total (meaning.scaled (.ok factor)) := by
  apply within_total
  intro time
  obtain ⟨value, valueOk⟩ := total time
  exact ⟨factor * value, by rw [valueOk]; rfl⟩

theorem cut_total (start stop : Decimal) (total : Total meaning) :
    Total (meaning.cut start stop) :=
  within_total fun time => total (time + start)

theorem concatenate_total {parts : List Signal} (total : ∀ part ∈ parts, Total part) :
    Total (concatenate parts) := by
  apply within_total
  induction parts with
  | nil => exact fun _ => ⟨0, rfl⟩
  | cons part rest ih =>
      have restTotal := ih fun other member => total other (by simp [member])
      intro time
      unfold sequenceValue
      split_ifs
      · exact restTotal time
      · exact total part (by simp) time
      · exact total part (by simp) time
      · exact restTotal (time - part.duration)

theorem between_total {time₀ time₁ : Decimal} (different : time₁ - time₀ ≠ 0)
    (value₀ value₁ time : Decimal) :
    ∃ value, Breakpoints.between time₀ value₀ time₁ value₁ time = .ok value := by
  obtain ⟨part, divided⟩ := Decimal.div_of_ne_zero ((value₁ - value₀) * (time - time₀)) _ different
  unfold Breakpoints.between
  rw [(Decimal.quotient_ok_iff _ _ _).2 divided]
  exact ⟨_, rfl⟩

theorem line_total (first last duration : Decimal) :
    Total (line (.ok first) (.ok last) duration) := by
  apply within_total
  intro time
  rw [Outcome.ok_bind, Outcome.ok_bind]
  split_ifs with empty
  · exact ⟨first, rfl⟩
  · exact between_total (by simpa using empty) first last time

theorem sampled_total (interpolation : Interpolation) (points : SamplePoints) (duration : Decimal) :
    Total (sampled interpolation (.ok points) duration) := by
  apply within_total
  intro time
  rw [Outcome.ok_bind]
  unfold sampledValue
  cases interpolation with
  | constant => exact ⟨_, rfl⟩
  | linear =>
      dsimp only
      split
      case h_1 nextTime nextValue _ _ =>
          split_ifs with same
          · exact ⟨_, rfl⟩
          · exact between_total (sub_ne_zero.2 same) _ _ time
      case h_2 => exact ⟨_, rfl⟩

end Analog.Signal

namespace Analog.Waveform

open LinearSeries

variable {bindings : ScalarBindings}

theorem lowering_leaf_ok_iff (subject : Unit → String) (duration : Scalar) (length : Decimal) :
    Lowering.leafDuration bindings subject duration = .ok length ↔
      duration.eval bindings = .ok length ∧ 0 ≤ length := by
  rw [Lowering.leaf_duration_ok_iff, leaf_duration_ok_iff]

/-- A polynomial of degree one at most is a line between its values at both ends. -/
theorem of_polynomial_ok_iff (construct : Unit → String) (length : Decimal)
    (values : List Decimal) (series : LinearSeries) :
    ofPolynomial construct length values = .ok series ↔
      (Lowering.significant values).length ≤ 2 ∧
        series = line length (Signal.polynomialValue values 0)
          (Signal.polynomialValue values length) := by
  rw [← Signal.polynomial_value_significant values 0,
    ← Signal.polynomial_value_significant values length]
  unfold ofPolynomial
  generalize Lowering.significant values = terms
  rcases terms with _ | ⟨value, _ | ⟨slope, _ | _⟩⟩
  · simp [Signal.polynomialValue, eq_comm]
  · simp [Signal.polynomialValue, eq_comm]
  · have atEnd : value + slope * length = slope * length + value := add_comm _ _
    simp [Signal.polynomialValue, eq_comm, atEnd]
  · simp

variable [Natives]

def Lowers (bindings : ScalarBindings) (waveform : Waveform) (series : LinearSeries) : Prop :=
  linearSeries? bindings waveform = .ok (some series)

theorem lower_linear_ok_iff (waveform : Waveform) (series : LinearSeries) :
    lowerLinear bindings waveform = .ok series ↔ Lowers bindings waveform series := by
  unfold lowerLinear Lowers
  simp [Outcome.bind_ok_iff]

section Rules

variable (series : LinearSeries)

theorem constant_lowers_iff (value duration : Scalar) :
    Lowers bindings (.constant value duration) series ↔
      ∃ length number, duration.eval bindings = .ok length ∧ 0 ≤ length ∧
        value.eval bindings = .ok number ∧ series = line length number number := by
  unfold Lowers linearSeries?
  simp only [Outcome.bind_ok_iff, lowering_leaf_ok_iff, Outcome.pure_ok_iff, Option.some.injEq]
  grind

theorem ramp_lowers_iff (start stop duration : Scalar) :
    Lowers bindings (.ramp start stop duration) series ↔
      ∃ length first last, duration.eval bindings = .ok length ∧ 0 ≤ length ∧
        start.eval bindings = .ok first ∧ stop.eval bindings = .ok last ∧
        series = line length first last := by
  unfold Lowers linearSeries?
  simp only [Outcome.bind_ok_iff, lowering_leaf_ok_iff, Outcome.pure_ok_iff, Option.some.injEq]
  grind

theorem poly_lowers_iff (coefficients : List Scalar) (duration : Scalar) :
    Lowers bindings (.poly coefficients duration) series ↔
      ∃ length values, duration.eval bindings = .ok length ∧ 0 ≤ length ∧
        Scalar.evalAll bindings coefficients = .ok values ∧
        (Lowering.significant values).length ≤ 2 ∧
        series = line length (Signal.polynomialValue values 0)
          (Signal.polynomialValue values length) := by
  unfold Lowers linearSeries?
  simp only [Outcome.bind_ok_iff, lowering_leaf_ok_iff, Outcome.pure_ok_iff, Option.some.injEq,
    of_polynomial_ok_iff]
  grind

theorem native_not_lowers (name function : String) (duration : Scalar)
    (parameters : List Scalar) :
    ¬Lowers bindings (.native name function duration parameters) series := by
  unfold Lowers linearSeries?
  simp

theorem smooth_not_lowers (inner : Waveform) (radius : Scalar) (kernel : Kernel) :
    ¬Lowers bindings (.smooth inner radius kernel) series := by
  unfold Lowers linearSeries?
  simp

theorem negative_lowers_iff (inner : Waveform) :
    Lowers bindings (.negative inner) series ↔
      ∃ innerSeries, Lowers bindings inner innerSeries ∧ series = innerSeries.map (-·) := by
  unfold Lowers
  rw [linearSeries?]
  simp only [Outcome.bind_ok_iff, Outcome.need_ok_iff, Outcome.pure_ok_iff, Option.some.injEq]
  grind

theorem scale_lowers_iff (factor : Scalar) (inner : Waveform) :
    Lowers bindings (.scale factor inner) series ↔
      ∃ innerSeries number, Lowers bindings inner innerSeries ∧
        factor.eval bindings = .ok number ∧ series = innerSeries.map (number * ·) := by
  unfold Lowers
  rw [linearSeries?]
  simp only [Outcome.bind_ok_iff, Outcome.need_ok_iff, Outcome.pure_ok_iff, Option.some.injEq]
  grind

theorem add_lowers_iff (left right : Waveform) :
    Lowers bindings (.add left right) series ↔
      ∃ leftSeries rightSeries, Lowers bindings left leftSeries ∧
        Lowers bindings right rightSeries ∧ leftSeries.plus rightSeries = .ok series := by
  unfold Lowers
  rw [linearSeries?]
  simp only [Outcome.bind_ok_iff, Outcome.need_ok_iff, Outcome.pure_ok_iff, Option.some.injEq]
  grind

theorem slice_lowers_iff (inner : Waveform) (interval : Interval) :
    Lowers bindings (.slice inner interval) series ↔
      ∃ innerSeries lower upper, Lowers bindings inner innerSeries ∧
        sliceBounds bindings (fun _ => (Waveform.slice inner interval).text) interval
          innerSeries.duration = .ok (lower, upper) ∧
        innerSeries.slice lower upper = .ok series := by
  unfold Lowers
  rw [linearSeries?]
  simp only [Outcome.bind_ok_iff, Outcome.need_ok_iff, Outcome.pure_ok_iff, Option.some.injEq]
  grind

theorem record_lowers_iff (name : String) (inner : Waveform) (side : Side) :
    Lowers bindings (.record name inner side) series ↔ Lowers bindings inner series := by
  unfold Lowers
  rw [linear_series_record]

theorem aligned_lowers_iff (inner : Waveform) (alignment : Side) (fill : FillValue) :
    Lowers bindings (.aligned inner alignment fill) series ↔ Lowers bindings inner series :=
  Iff.rfl

theorem sample_lowers_iff (inner : Waveform) (step : Scalar) (interpolation : Interpolation) :
    Lowers bindings (.sample inner step interpolation) series ↔
      interpolation = .linear ∧ ∃ meaning points, inner.signal bindings = .ok meaning ∧
        Signal.samplePoints (fun _ => (Waveform.sample inner step interpolation).text) meaning
          (step.eval bindings) interpolation = .ok points ∧
        series = ⟨List.zipWith Breakpoint.mk points.times points.values⟩ := by
  unfold Lowers linearSeries? Lowering.sampled
  cases interpolation with
  | constant => simp
  | linear =>
      simp only [Outcome.bind_ok_iff, Outcome.pure_ok_iff, Option.some.injEq, true_and]
      grind

end Rules

theorem linear_series_all_ok_iff (parts : List Waveform) (lowered : List (Option LinearSeries)) :
    linearSeriesAll bindings parts = .ok lowered ↔
      List.Forall₂ (fun part series => linearSeries? bindings part = .ok series) parts lowered := by
  have asMap : linearSeriesAll bindings parts = parts.mapM (linearSeries? bindings) := by
    induction parts with
    | nil => rfl
    | cons part rest ih =>
        rw [linearSeriesAll, List.mapM_cons, ih]
  rw [asMap, Outcome.mapM_ok_iff]

theorem all_lower {parts : List Waveform} {lowered : List (Option LinearSeries)}
    (each : ∀ part ∈ parts, ∀ found, linearSeries? bindings part = .ok found →
      ∃ series, found = some series)
    (lowers : List.Forall₂ (fun part series => linearSeries? bindings part = .ok series) parts
      lowered) :
    ∃ found : List LinearSeries, lowered = found.map some ∧
      List.Forall₂ (Lowers bindings) parts found :=
  Outcome.related_some each lowers

/-- Only waveforms one after the other that are none have no series. -/
theorem lowers_of_linear_series (waveform : Waveform) (lowered : Option LinearSeries)
    (filled : ∀ node ∈ waveform.exposed, node ≠ .append [])
    (found : linearSeries? bindings waveform = .ok lowered) : ∃ series, lowered = some series := by
  induction waveform using Waveform.parts_induction generalizing lowered with
  | append parts ih =>
      rw [linearSeries?, Outcome.bind_ok_iff] at found
      obtain ⟨all, allLower, joins⟩ := found
      rw [linear_series_all_ok_iff] at allLower
      obtain ⟨serieses, rfl, related⟩ := all_lower (fun part member partLowered partFound =>
        ih part member partLowered (exposed_of_part filled part member) partFound)
        allLower
      cases related with
      | nil => exact absurd rfl (filled (.append []) (by simp [exposed]))
      | cons _ _ => exact concatenate_some _ _ joins
  | record name inner side ih =>
      exact ih lowered (fun node member => filled node (by simp [exposed, member])) found
  | aligned inner alignment fill ih =>
      exact ih lowered (fun node member => filled node (by simp [exposed, member])) found
  | sample inner step interpolation =>
      unfold linearSeries? at found
      cases interpolation with
      | linear =>
          simp only [Outcome.bind_ok_iff, Outcome.pure_ok_iff] at found
          grind
      | constant => simp at found
  | native name function duration parameters => simp [linearSeries?] at found
  | smooth inner radius kernel => simp [linearSeries?] at found
  | _ =>
      rw [linearSeries?] at found
      simp only [Outcome.bind_ok_iff, Outcome.pure_ok_iff] at found
      grind

theorem append_lowers {part : Waveform} {others : List Waveform} {first series : LinearSeries}
    {rest : List LinearSeries} (partLowers : Lowers bindings part first)
    (othersLower : List.Forall₂ (Lowers bindings) others rest)
    (joins : LinearSeries.concatenate (some first) (rest.map some) = .ok (some series)) :
    Lowers bindings (.append (part :: others)) series := by
  unfold Lowers
  rw [linearSeries?, Outcome.bind_ok_iff]
  refine ⟨some first :: rest.map some, (linear_series_all_ok_iff _ _).2 ?_, joins⟩
  exact List.Forall₂.cons partLowers (List.forall₂_map_right_iff.2 othersLower)

theorem append_lowers_iff (parts : List Waveform)
    (filled : ∀ node ∈ (Waveform.append parts).exposed, node ≠ .append [])
    (series : LinearSeries) :
    Lowers bindings (.append parts) series ↔
      ∃ first rest part others, parts = part :: others ∧ Lowers bindings part first ∧
        List.Forall₂ (Lowers bindings) others rest ∧
        LinearSeries.concatenate (some first) (rest.map some) = .ok (some series) := by
  have partFilled := exposed_of_part filled
  constructor
  · unfold Lowers
    rw [linearSeries?, Outcome.bind_ok_iff]
    simp only [linear_series_all_ok_iff]
    rintro ⟨all, allLower, joins⟩
    obtain ⟨serieses, rfl, related⟩ := all_lower (fun part member partLowered =>
      lowers_of_linear_series part partLowered (partFilled part member)) allLower
    cases related with
    | nil => exact absurd rfl (filled (.append []) (by simp [exposed]))
    | cons partLowers othersLower => exact ⟨_, _, _, _, rfl, partLowers, othersLower, joins⟩
  · rintro ⟨first, rest, part, others, rfl, partLowers, othersLower, joins⟩
    exact append_lowers partLowers othersLower joins

/-- A waveform with a meaning that is known at every time and lasts as long as the series. -/
def Spanned (bindings : ScalarBindings) (waveform : Waveform) (series : LinearSeries) : Prop :=
  ∃ meaning first last, signal bindings waveform = .ok meaning ∧ meaning.Total ∧
    Spans series meaning.duration first last

theorem Spanned.all {parts : List Waveform} {serieses : List LinearSeries}
    (each : List.Forall₂ (Spanned bindings) parts serieses) :
    ∃ meanings, signals bindings parts = .ok meanings ∧ (∀ meaning ∈ meanings, meaning.Total) ∧
      List.Forall₂ (fun series meaning => ∃ first last,
        Spans series meaning.duration first last) serieses meanings := by
  induction each with
  | nil => exact ⟨[], rfl, by simp, List.Forall₂.nil⟩
  | cons spanned _ ih =>
      obtain ⟨meanings, mean, total, related⟩ := ih
      obtain ⟨meaning, first, last, means, meaningTotal, spans⟩ := spanned
      refine ⟨meaning :: meanings, ?_, by simpa using ⟨meaningTotal, total⟩,
        List.Forall₂.cons ⟨first, last, spans⟩ related⟩
      rw [signals, means, Outcome.ok_bind, mean]
      rfl

theorem spanned_leaf {waveform : Waveform} {duration : Scalar} {length first last : Decimal}
    {inside : Decimal → Decimal → Outcome Decimal}
    (means : signal bindings waveform = (do
      let length ← leafDuration bindings duration
      return Signal.within length (inside length)))
    (durationOk : duration.eval bindings = .ok length) (nonneg : 0 ≤ length)
    (total : (Signal.within length (inside length)).Total) :
    Spanned bindings waveform (line length first last) := by
  refine ⟨Signal.within length (inside length), first, _, ?_, total, line_spans nonneg⟩
  rw [means, (leaf_duration_ok_iff _ _ _).2 ⟨durationOk, nonneg⟩]
  rfl

/-- A waveform that lowers has a meaning, which its series spans. -/
theorem spanned_of_lowers (waveform : Waveform) (series : LinearSeries)
    (filled : ∀ node ∈ waveform.exposed, node ≠ .append [])
    (lowers : Lowers bindings waveform series) : Spanned bindings waveform series := by
  induction waveform using Waveform.parts_induction generalizing series with
  | constant value duration =>
      obtain ⟨length, number, durationOk, nonneg, valueOk, rfl⟩ :=
        (constant_lowers_iff _ _ _).1 lowers
      exact spanned_leaf (signal.eq_def _ _) durationOk nonneg
        (Signal.within_total fun _ => ⟨number, valueOk⟩)
  | ramp start stop duration =>
      obtain ⟨length, first, last, durationOk, nonneg, startOk, stopOk, rfl⟩ :=
        (ramp_lowers_iff _ _ _ _).1 lowers
      apply spanned_leaf (signal.eq_def _ _) durationOk nonneg
      rw [startOk, stopOk]
      exact Signal.line_total first last length
  | poly coefficients duration =>
      obtain ⟨length, values, durationOk, nonneg, valuesOk, _, rfl⟩ :=
        (poly_lowers_iff _ _ _).1 lowers
      exact spanned_leaf (signal.eq_def _ _) durationOk nonneg
        (Signal.within_total fun time =>
          ⟨Signal.polynomialValue values time, by rw [valuesOk]; rfl⟩)
  | native name function duration parameters => exact absurd lowers (native_not_lowers _ _ _ _ _)
  | negative inner ih =>
      obtain ⟨innerSeries, innerLowers, rfl⟩ := (negative_lowers_iff _ _).1 lowers
      obtain ⟨meaning, first, last, means, total, spans⟩ :=
        ih innerSeries (fun node member => filled node (by simp [exposed, member])) innerLowers
      refine ⟨_, _, _, ?_, Signal.negate_total total, map_spans _ spans⟩
      rw [signal, means]
      rfl
  | add left right leftIh rightIh =>
      obtain ⟨leftSeries, rightSeries, leftLowers, rightLowers, summed⟩ :=
        (add_lowers_iff _ _ _).1 lowers
      obtain ⟨leftMeaning, _, _, leftMeans, leftTotal, leftSpans⟩ :=
        leftIh leftSeries (fun node member => filled node (by simp [exposed, member])) leftLowers
      obtain ⟨rightMeaning, _, _, rightMeans, rightTotal, rightSpans⟩ :=
        rightIh rightSeries (fun node member => filled node (by simp [exposed, member])) rightLowers
      obtain ⟨_, rfl⟩ := (plus_ok_iff leftSpans rightSpans series).1 summed
      refine ⟨_, _, _, ?_, Signal.plus_total leftTotal rightTotal, plus_spans leftSpans rightSpans⟩
      rw [signal, leftMeans, Outcome.ok_bind, rightMeans]
      rfl
  | scale factor inner ih =>
      obtain ⟨innerSeries, number, innerLowers, factorOk, rfl⟩ := (scale_lowers_iff _ _ _).1 lowers
      obtain ⟨meaning, first, last, means, total, spans⟩ :=
        ih innerSeries (fun node member => filled node (by simp [exposed, member])) innerLowers
      refine ⟨_, _, _, ?_, Signal.scaled_total number total, map_spans _ spans⟩
      rw [signal, means, factorOk]
      rfl
  | slice inner interval ih =>
      obtain ⟨innerSeries, lower, upper, innerLowers, bounds, sliced⟩ :=
        (slice_lowers_iff _ _ _).1 lowers
      obtain ⟨meaning, first, last, means, total, spans⟩ :=
        ih innerSeries (fun node member => filled node (by simp [exposed, member])) innerLowers
      refine ⟨_, _, _, ?_, Signal.cut_total lower upper total, slice_spans spans.formed sliced⟩
      rw [spans.lasts] at bounds
      rw [signal, means, Outcome.ok_bind, bounds]
      rfl
  | append parts ih =>
      obtain ⟨first, rest, part, others, rfl, partLowers, othersLower, joins⟩ :=
        (append_lowers_iff _ filled _).1 lowers
      have partFilled := exposed_of_part filled
      obtain ⟨meaning, _, _, means, total, spans⟩ :=
        ih part (by simp) first (partFilled part (by simp)) partLowers
      obtain ⟨meanings, mean, restTotal, related⟩ := Spanned.all
        (Outcome.related_of_mem othersLower fun other member otherSeries =>
          ih other (by simp [member]) otherSeries (partFilled other (by simp [member])))
      obtain ⟨start, stop, wholeSpans⟩ := concatenate_spans
        (List.forall₂_map_right_iff.2 related) spans joins
      rw [← Signal.total_duration_eq_sum] at wholeSpans
      refine ⟨Signal.concatenate (meaning :: meanings), start, stop, ?_,
        Signal.concatenate_total (by simpa using ⟨total, restTotal⟩), wholeSpans⟩
      rw [signal, signals, means, Outcome.ok_bind, mean]
      rfl
  | record name inner side ih =>
      have innerLowers := (record_lowers_iff _ _ _ _).1 lowers
      exact ih series (fun node member => filled node (by simp [exposed, member])) innerLowers
  | sample inner step interpolation ih =>
      obtain ⟨rfl, meaning, points, means, found, rfl⟩ := (sample_lowers_iff _ _ _ _).1 lowers
      have bounded := signal_bounded bindings inner meaning means
      obtain ⟨start, stop, _, _, spans⟩ := samples_span bounded.nonneg found
      refine ⟨Signal.sampled .linear (.ok points) meaning.duration, start, stop, ?_,
        Signal.sampled_total .linear points meaning.duration, spans⟩
      rw [signal, means, Outcome.ok_bind, found]
      rfl
  | smooth inner radius kernel => exact absurd lowers (smooth_not_lowers _ _ _ _)
  | aligned inner alignment fill ih =>
      have innerLowers := (aligned_lowers_iff _ _ _ _).1 lowers
      exact ih series (fun node member => filled node (by simp [exposed, member])) innerLowers

end Analog.Waveform
