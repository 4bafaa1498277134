import Analog.Proofs.ConstantLowering
import Analog.Proofs.LinearLowering

/-!
# Waveforms with constant series

One rule for each way of building waveforms says when a waveform has a constant series, and which.
Every such series repeats its last value, and the waveform has a value at every time.
-/

set_option autoImplicit false

namespace Analog

namespace Breakpoints

def FlatEnd (points : List Breakpoint) : Prop :=
  ∀ before next last, points = before ++ [next, last] → last.value = next.value

theorem flat_end_iff (points : List Breakpoint) : FlatEnd points ↔ flatTail points = points := by
  constructor
  · intro flat
    rcases last_pair_cases points with rfl | ⟨point, rfl⟩ | ⟨before, next, last, rfl⟩
    · rfl
    · rfl
    · rw [flat_tail_pair, ← flat before next last rfl]
  · rintro same before next last rfl
    rw [flat_tail_pair, List.append_cancel_left_eq, List.cons.injEq, List.cons.injEq] at same
    exact (congrArg Breakpoint.value same.2.1).symm

theorem flat_end_flat_tail (points : List Breakpoint) : FlatEnd (flatTail points) :=
  (flat_end_iff _).2 (flat_tail_flat_tail points)

theorem flat_end_of_same {points : List Breakpoint} {value : Decimal}
    (each : ∀ point ∈ points, point.value = value) : FlatEnd points := by
  rintro before next last rfl
  rw [each last (by simp), each next (by simp)]

theorem flat_end_map (f : Decimal → Decimal) {points : List Breakpoint} (flat : FlatEnd points) :
    FlatEnd (mapValues f points) := by
  intro before next last same
  rw [mapValues, List.map_eq_append_iff] at same
  obtain ⟨earlier, pair, rfl, _, samePair⟩ := same
  obtain ⟨next', rest, rfl, rfl, sameRest⟩ := List.map_eq_cons_iff.1 samePair
  obtain ⟨last', none, rfl, rfl, sameNone⟩ := List.map_eq_cons_iff.1 sameRest
  rw [List.map_eq_nil_iff.1 sameNone] at flat
  exact congrArg f (flat earlier next' last' rfl)

/-- Values that end flat, put at as many times, are points that do. -/
theorem flat_tail_of_values (timeList valueList : List Decimal)
    (sameLength : timeList.length = valueList.length) :
    List.zipWith Breakpoint.mk timeList (Signal.flattenEnd valueList) =
      flatTail (List.zipWith Breakpoint.mk timeList valueList) := by
  induction valueList generalizing timeList with
  | nil => cases timeList <;> rfl
  | cons first rest ih =>
      match timeList, rest with
      | [_], [] => rfl
      | [_, _], [_] => rfl
      | time :: next :: final :: times, second :: third :: values =>
          have later := ih (next :: final :: times) (Nat.succ.inj sameLength)
          exact congrArg (⟨time, first⟩ :: ·) later

end Breakpoints

namespace Signal

open Breakpoints

theorem samples_flat {subject : Unit → String} {inner : Signal} {step : Outcome Decimal}
    {points : SamplePoints} (found : samplePoints subject inner step .constant = .ok points) :
    FlatEnd (List.zipWith Breakpoint.mk points.times points.values) := by
  obtain ⟨_, values, _, _, _, valuesOk, valuesSame, _⟩ := sample_points_ok _ _ _ _ _ found
  have sameLength := ((Outcome.mapM_ok_iff _ _ _).1 valuesOk).length_eq
  rw [valuesSame]
  dsimp only
  rw [flat_tail_of_values _ _ sameLength]
  exact flat_end_flat_tail _

end Signal

namespace ConstantSeries

open Breakpoints

variable {series left right joined : ConstantSeries}

theorem level_flat (duration value : Decimal) : FlatEnd (level duration value).points :=
  flat_end_of_same fun _ member => value_of_mem_level duration value member

theorem plus_flat : FlatEnd (left.plus right).points :=
  flat_end_flat_tail _

theorem slice_flat {start stop : Decimal} {part : ConstantSeries}
    (sliced : series.slice start stop = .ok part) : FlatEnd part.points := by
  rw [((slice_ok_iff start stop part).1 sliced).2]
  exact flat_end_flat_tail _

theorem append_flat (flat : FlatEnd left.points) : FlatEnd (left.append right).points := by
  unfold append
  split
  · exact flat_end_flat_tail _
  · exact flat

/-- One more part is joined to those before, unless one of them has no duration. -/
theorem concatenate_cons (joined part : ConstantSeries) (rest : List (Option ConstantSeries)) :
    concatenate (some joined) (some part :: rest) =
      concatenate (some (if part.duration.isZero then joined
        else if joined.duration.isZero then part else joined.append part)) rest := by
  rw [concatenate, Outcome.need, Outcome.ok_bind]
  split_ifs <;> rfl

theorem concatenate_flat {parts : List ConstantSeries} {whole : ConstantSeries}
    (flat : FlatEnd joined.points) (each : ∀ part ∈ parts, FlatEnd part.points)
    (joins : concatenate (some joined) (parts.map some) = .ok (some whole)) :
    FlatEnd whole.points := by
  induction parts generalizing joined with
  | nil =>
      cases joins
      exact flat
  | cons part rest ih =>
      have partFlat := each part List.mem_cons_self
      rw [List.map_cons, concatenate_cons] at joins
      apply ih _ (fun other member => each other (List.mem_cons_of_mem _ member)) joins
      split_ifs
      · exact flat
      · exact partFlat
      · exact append_flat flat

/-- The series of a line is a level, and there is one if the line is level or has no duration. -/
theorem of_line_ok_iff (construct : Unit → String) (length start stop : Decimal) :
    ofLine construct length start stop = .ok series ↔
      (start = stop ∨ length = 0) ∧ series = level length start := by
  unfold ofLine
  split_ifs with flat
  · have known : start = stop ∨ length = 0 := by simpa using flat
    simp [known, eq_comm]
  · have unknown : ¬(start = stop ∨ length = 0) := by simpa using flat
    simp [unknown]

/-- The series of a polynomial is a level of its first coefficient, and there is one if no other
coefficient counts or the polynomial has no duration. -/
theorem of_polynomial_ok_iff (construct : Unit → String) (length : Decimal)
    (values : List Decimal) :
    ofPolynomial construct length values = .ok series ↔
      ((Lowering.significant values).length ≤ 1 ∨ length = 0) ∧
        series = level length ((Lowering.significant values).headD 0) := by
  unfold ofPolynomial
  generalize Lowering.significant values = terms
  match terms with
  | [] => simp [eq_comm]
  | [value] => simp [eq_comm]
  | value :: slope :: others =>
      dsimp only
      split_ifs with empty
      · rw [Decimal.is_zero_iff] at empty
        rw [Except.ok.injEq]
        exact ⟨fun same => ⟨.inr empty, same.symm⟩, fun both => both.2.symm⟩
      · rw [Decimal.is_zero_iff] at empty
        simp [empty]

end ConstantSeries

namespace Waveform

open ConstantSeries

variable {bindings : ScalarBindings} [Natives]

def Steps (bindings : ScalarBindings) (waveform : Waveform) (series : ConstantSeries) : Prop :=
  constantSeries? bindings waveform = .ok (some series)

theorem lower_constant_ok_iff (waveform : Waveform) (series : ConstantSeries) :
    lowerConstant bindings waveform = .ok series ↔ Steps bindings waveform series := by
  unfold lowerConstant Steps
  simp [Outcome.bind_ok_iff]

theorem Steps.tracked {waveform : Waveform} {series : ConstantSeries}
    (steps : Steps bindings waveform series)
    (filled : ∀ node ∈ waveform.exposed, node ≠ .append []) :
    ∃ meaning, signal bindings waveform = .ok meaning ∧ series.Tracks meaning := by
  obtain ⟨_, meaning, same, means, tracks⟩ := constant_series_tracked waveform _ filled steps
  cases same
  exact ⟨meaning, means, tracks⟩

theorem lower_formed {waveform : Waveform} {target : Target} {series : Series}
    (filled : ∀ node ∈ waveform.exposed, node ≠ .append [])
    (lowers : waveform.lower bindings target = .ok series) :
    waveform.duration bindings = .ok series.duration ∧
      Breakpoints.WellFormed series.points := by
  cases target with
  | linear =>
      obtain ⟨line, lineOk, rfl⟩ := (Outcome.map_ok_iff _ _ _).1 lowers
      obtain ⟨meaning, first, last, means, _, spans⟩ :=
        spanned_of_lowers waveform line filled ((lower_linear_ok_iff _ _).1 lineOk)
      have lasts : waveform.duration bindings = .ok meaning.duration := duration_of_signal means
      rw [← spans.lasts] at lasts
      exact ⟨lasts, spans.formed⟩
  | constant =>
      obtain ⟨steps, stepsOk, rfl⟩ := (Outcome.map_ok_iff _ _ _).1 lowers
      obtain ⟨meaning, means, tracks⟩ := ((lower_constant_ok_iff _ _).1 stepsOk).tracked filled
      have lasts : waveform.duration bindings = .ok meaning.duration := duration_of_signal means
      rw [tracks.lasts] at lasts
      exact ⟨lasts, tracks.formed⟩

section Rules

variable (series : ConstantSeries)

theorem constant_steps_iff (value duration : Scalar) :
    Steps bindings (.constant value duration) series ↔
      ∃ length number, duration.eval bindings = .ok length ∧ 0 ≤ length ∧
        value.eval bindings = .ok number ∧ series = level length number := by
  unfold Steps constantSeries?
  simp only [Outcome.bind_ok_iff, lowering_leaf_ok_iff, Outcome.pure_ok_iff, Option.some.injEq]
  grind

theorem ramp_steps_iff (start stop duration : Scalar) :
    Steps bindings (.ramp start stop duration) series ↔
      ∃ length first last, duration.eval bindings = .ok length ∧ 0 ≤ length ∧
        start.eval bindings = .ok first ∧ stop.eval bindings = .ok last ∧
        (first = last ∨ length = 0) ∧ series = level length first := by
  unfold Steps constantSeries?
  simp only [Outcome.bind_ok_iff, lowering_leaf_ok_iff, Outcome.pure_ok_iff, Option.some.injEq,
    of_line_ok_iff]
  grind

theorem poly_steps_iff (coefficients : List Scalar) (duration : Scalar) :
    Steps bindings (.poly coefficients duration) series ↔
      ∃ length values, duration.eval bindings = .ok length ∧ 0 ≤ length ∧
        Scalar.evalAll bindings coefficients = .ok values ∧
        ((Lowering.significant values).length ≤ 1 ∨ length = 0) ∧
        series = level length ((Lowering.significant values).headD 0) := by
  unfold Steps constantSeries?
  simp only [Outcome.bind_ok_iff, lowering_leaf_ok_iff, Outcome.pure_ok_iff, Option.some.injEq,
    ConstantSeries.of_polynomial_ok_iff]
  grind

theorem native_not_steps (name function : String) (duration : Scalar)
    (parameters : List Scalar) :
    ¬Steps bindings (.native name function duration parameters) series := by
  unfold Steps constantSeries?
  simp

theorem smooth_not_steps (inner : Waveform) (radius : Scalar) (kernel : Kernel) :
    ¬Steps bindings (.smooth inner radius kernel) series := by
  unfold Steps constantSeries?
  simp

theorem negative_steps_iff (inner : Waveform) :
    Steps bindings (.negative inner) series ↔
      ∃ innerSeries, Steps bindings inner innerSeries ∧ series = innerSeries.map (-·) := by
  unfold Steps
  rw [constantSeries?]
  simp only [Outcome.bind_ok_iff, Outcome.need_ok_iff, Outcome.pure_ok_iff, Option.some.injEq]
  grind

theorem scale_steps_iff (factor : Scalar) (inner : Waveform) :
    Steps bindings (.scale factor inner) series ↔
      ∃ innerSeries number, Steps bindings inner innerSeries ∧
        factor.eval bindings = .ok number ∧ series = innerSeries.map (number * ·) := by
  unfold Steps
  rw [constantSeries?]
  simp only [Outcome.bind_ok_iff, Outcome.need_ok_iff, Outcome.pure_ok_iff, Option.some.injEq]
  grind

theorem add_steps_iff (left right : Waveform) :
    Steps bindings (.add left right) series ↔
      ∃ leftSeries rightSeries, Steps bindings left leftSeries ∧
        Steps bindings right rightSeries ∧ series = leftSeries.plus rightSeries := by
  unfold Steps
  rw [constantSeries?]
  simp only [Outcome.bind_ok_iff, Outcome.need_ok_iff, Outcome.pure_ok_iff, Option.some.injEq]
  grind

theorem slice_steps_iff (inner : Waveform) (interval : Interval) :
    Steps bindings (.slice inner interval) series ↔
      ∃ innerSeries lower upper, Steps bindings inner innerSeries ∧
        sliceBounds bindings (fun _ => (Waveform.slice inner interval).text) interval
          innerSeries.duration = .ok (lower, upper) ∧
        innerSeries.slice lower upper = .ok series := by
  unfold Steps
  rw [constantSeries?]
  simp only [Outcome.bind_ok_iff, Outcome.need_ok_iff, Outcome.pure_ok_iff, Option.some.injEq]
  grind

theorem record_steps_iff (name : String) (inner : Waveform) (side : Side) :
    Steps bindings (.record name inner side) series ↔ Steps bindings inner series :=
  Iff.rfl

theorem aligned_steps_iff (inner : Waveform) (alignment : Side) (fill : FillValue) :
    Steps bindings (.aligned inner alignment fill) series ↔ Steps bindings inner series :=
  Iff.rfl

theorem sample_steps_iff (inner : Waveform) (step : Scalar) (interpolation : Interpolation) :
    Steps bindings (.sample inner step interpolation) series ↔
      interpolation = .constant ∧ ∃ meaning points, inner.signal bindings = .ok meaning ∧
        Signal.samplePoints (fun _ => (Waveform.sample inner step interpolation).text) meaning
          (step.eval bindings) interpolation = .ok points ∧
        series = ⟨List.zipWith Breakpoint.mk points.times points.values⟩ := by
  unfold Steps constantSeries? Lowering.sampled
  cases interpolation with
  | linear => simp
  | constant =>
      simp only [Outcome.bind_ok_iff, Outcome.pure_ok_iff, Option.some.injEq, true_and]
      grind

theorem append_steps_iff (parts : List Waveform)
    (filled : ∀ node ∈ (Waveform.append parts).exposed, node ≠ .append []) :
    Steps bindings (.append parts) series ↔
      ∃ first rest part others, parts = part :: others ∧ Steps bindings part first ∧
        List.Forall₂ (Steps bindings) others rest ∧
        ConstantSeries.concatenate (some first) (rest.map some) = .ok (some series) := by
  have partFilled := exposed_of_part filled
  unfold Steps
  rw [constantSeries?, Outcome.bind_ok_iff]
  simp only [constant_series_all_ok_iff]
  constructor
  · rintro ⟨all, allLower, joins⟩
    obtain ⟨serieses, rfl, related⟩ := Outcome.related_some (fun part member lowered found => by
      obtain ⟨one, _, same, _⟩ :=
        constant_series_tracked part lowered (partFilled part member) found
      exact ⟨one, same⟩) allLower
    cases related with
    | nil => exact absurd rfl (filled (.append []) (by simp [exposed]))
    | cons partSteps othersStep => exact ⟨_, _, _, _, rfl, partSteps, othersStep, joins⟩
  · rintro ⟨first, rest, part, others, rfl, partSteps, othersStep, joins⟩
    exact ⟨some first :: rest.map some,
      .cons partSteps (List.forall₂_map_right_iff.2 othersStep), joins⟩

end Rules

/-- A waveform that has a value at every time, and a series that ends flat. -/
structure Stepped (bindings : ScalarBindings) (waveform : Waveform) (series : ConstantSeries) :
    Prop where
  valued : ∃ meaning, signal bindings waveform = .ok meaning ∧ meaning.Total
  flat : Breakpoints.FlatEnd series.points

theorem stepped_leaf {waveform : Waveform} {duration : Scalar} {length value : Decimal}
    {inside : Decimal → Decimal → Outcome Decimal}
    (means : signal bindings waveform = (do
      let length ← leafDuration bindings duration
      return Signal.within length (inside length)))
    (durationOk : duration.eval bindings = .ok length) (nonneg : 0 ≤ length)
    (total : (Signal.within length (inside length)).Total) :
    Stepped bindings waveform (level length value) := by
  refine ⟨⟨_, ?_, total⟩, level_flat length value⟩
  rw [means, (leaf_duration_ok_iff _ _ _).2 ⟨durationOk, nonneg⟩]
  rfl

theorem Steps.stepped {waveform : Waveform} {series : ConstantSeries}
    (steps : Steps bindings waveform series)
    (filled : ∀ node ∈ waveform.exposed, node ≠ .append []) :
    Stepped bindings waveform series := by
  induction waveform using Waveform.parts_induction generalizing series with
  | constant value duration =>
      obtain ⟨length, number, durationOk, nonneg, valueOk, rfl⟩ :=
        (constant_steps_iff _ _ _).1 steps
      exact stepped_leaf (signal.eq_def _ _) durationOk nonneg
        (Signal.within_total fun _ => ⟨number, valueOk⟩)
  | ramp start stop duration =>
      obtain ⟨length, first, last, durationOk, nonneg, startOk, stopOk, _, rfl⟩ :=
        (ramp_steps_iff _ _ _ _).1 steps
      apply stepped_leaf (signal.eq_def _ _) durationOk nonneg
      rw [startOk, stopOk]
      exact Signal.line_total first last length
  | poly coefficients duration =>
      obtain ⟨length, values, durationOk, nonneg, valuesOk, _, rfl⟩ :=
        (poly_steps_iff _ _ _).1 steps
      exact stepped_leaf (signal.eq_def _ _) durationOk nonneg (Signal.within_total fun time =>
        ⟨Signal.polynomialValue values time, by rw [valuesOk]; rfl⟩)
  | native name function duration parameters => exact absurd steps (native_not_steps _ _ _ _ _)
  | negative inner ih =>
      obtain ⟨innerSeries, innerSteps, rfl⟩ := (negative_steps_iff _ _).1 steps
      obtain ⟨⟨meaning, means, total⟩, flat⟩ :=
        ih innerSteps (fun node member => filled node (by simp [exposed, member]))
      refine ⟨⟨_, ?_, Signal.negate_total total⟩, Breakpoints.flat_end_map _ flat⟩
      rw [signal, means]
      rfl
  | add left right leftIh rightIh =>
      obtain ⟨leftSeries, rightSeries, leftSteps, rightSteps, rfl⟩ := (add_steps_iff _ _ _).1 steps
      obtain ⟨⟨leftMeaning, leftMeans, leftTotal⟩, _⟩ :=
        leftIh leftSteps (fun node member => filled node (by simp [exposed, member]))
      obtain ⟨⟨rightMeaning, rightMeans, rightTotal⟩, _⟩ :=
        rightIh rightSteps (fun node member => filled node (by simp [exposed, member]))
      refine ⟨⟨_, ?_, Signal.plus_total leftTotal rightTotal⟩, plus_flat⟩
      rw [signal, leftMeans, Outcome.ok_bind, rightMeans]
      rfl
  | scale factor inner ih =>
      obtain ⟨innerSeries, number, innerSteps, factorOk, rfl⟩ := (scale_steps_iff _ _ _).1 steps
      obtain ⟨⟨meaning, means, total⟩, flat⟩ :=
        ih innerSteps (fun node member => filled node (by simp [exposed, member]))
      refine ⟨⟨_, ?_, Signal.scaled_total number total⟩, Breakpoints.flat_end_map _ flat⟩
      rw [signal, means, factorOk]
      rfl
  | slice inner interval ih =>
      obtain ⟨innerSeries, lower, upper, innerSteps, bounds, sliced⟩ :=
        (slice_steps_iff _ _ _).1 steps
      have innerFilled : ∀ node ∈ inner.exposed, node ≠ .append [] :=
        fun node member => filled node (by simp [exposed, member])
      obtain ⟨⟨meaning, means, total⟩, _⟩ := ih innerSteps innerFilled
      -- The bounds are checked against the duration of the series, which is that of the meaning.
      obtain ⟨tracked, trackedMeans, tracks⟩ := innerSteps.tracked innerFilled
      cases means.symm.trans trackedMeans
      refine ⟨⟨_, ?_, Signal.cut_total lower upper total⟩, slice_flat sliced⟩
      rw [signal, means, Outcome.ok_bind, tracks.lasts, bounds]
      rfl
  | append parts ih =>
      obtain ⟨first, rest, part, others, rfl, partSteps, othersStep, joins⟩ :=
        (append_steps_iff _ _ filled).1 steps
      have partFilled := exposed_of_part filled
      have partStepped := ih part (by simp) partSteps (partFilled part (by simp))
      have othersStepped : List.Forall₂ (Stepped bindings) others rest :=
        Outcome.related_of_mem othersStep fun other member found otherSteps =>
          ih other (by simp [member]) otherSteps (partFilled other (by simp [member]))
      have allStepped := List.Forall₂.cons partStepped othersStepped
      constructor
      · have each : ∀ one ∈ part :: others,
            ∃ meaning, signal bindings one = .ok meaning ∧ meaning.Total := fun one member => by
          obtain ⟨_, _, oneStepped⟩ := Outcome.target_of_mem allStepped member
          exact oneStepped.valued
        obtain ⟨meanings, mean⟩ := Outcome.related_of_each each
        refine ⟨Signal.concatenate meanings, ?_, Signal.concatenate_total fun meaning member => ?_⟩
        · rw [signal, (signals_ok_iff _ _ _).2 (mean.imp fun _ _ both => both.1)]
          rfl
        · obtain ⟨_, _, _, total⟩ := Outcome.source_of_mem mean member
          exact total
      · apply concatenate_flat partStepped.flat _ joins
        intro found member
        obtain ⟨_, _, otherStepped⟩ := Outcome.source_of_mem othersStepped member
        exact otherStepped.flat
  | record name inner side ih =>
      have innerSteps := (record_steps_iff _ _ _ _).1 steps
      have innerStepped :=
        ih innerSteps (fun node member => filled node (by simp [exposed, member]))
      exact ⟨innerStepped.valued, innerStepped.flat⟩
  | sample inner step interpolation ih =>
      -- Samples are taken of the meaning, whether the sampled waveform has a series or not.
      obtain ⟨rfl, meaning, points, means, found, rfl⟩ := (sample_steps_iff _ _ _ _).1 steps
      refine ⟨⟨_, ?_, Signal.sampled_total .constant points meaning.duration⟩,
        Signal.samples_flat found⟩
      rw [signal, means, Outcome.ok_bind, found]
      rfl
  | smooth inner radius kernel => exact absurd steps (smooth_not_steps _ _ _ _)
  | aligned inner alignment fill ih =>
      have innerSteps := (aligned_steps_iff _ _ _ _).1 steps
      have innerStepped :=
        ih innerSteps (fun node member => filled node (by simp [exposed, member]))
      exact ⟨innerStepped.valued, innerStepped.flat⟩

end Waveform

end Analog
