import Analog.Proofs.LinearValidation
import Analog.Proofs.SteppedWaveforms

/-!
# Validation of constant series

The validator and the lowering of constant series look at the parts of a waveform in the same order
and reject the same leaves, slices and samples. So one succeeds exactly when the other does, and
where they fail they fail in the same way. The validator skips the values that have no part in its
decision, and a sum of series, which cannot fail.
-/

set_option autoImplicit false

namespace Analog

namespace Outcome

variable {α β γ δ : Type}

/-- Both succeed, with related results, or both fail in the same way. -/
inductive Parallel (relation : α → β → Prop) : Outcome α → Outcome β → Prop
  | ok {first : α} {second : β} (related : relation first second) :
      Parallel relation (.ok first) (.ok second)
  | error (failure : Failure) : Parallel relation (.error failure) (.error failure)

namespace Parallel

variable {relation : α → β → Prop} {next : γ → δ → Prop} {first : Outcome α} {second : Outcome β}

theorem bind {work : α → Outcome γ} {other : β → Outcome δ}
    (parallel : Parallel relation first second)
    (works : ∀ value result, first = .ok value → relation value result →
      Parallel next (work value) (other result)) :
    Parallel next (first >>= work) (second >>= other) := by
  cases parallel with
  | ok related => exact works _ _ rfl related
  | error failure => exact .error failure

theorem same_bind {outcome : Outcome α} {work : α → Outcome γ} {other : α → Outcome δ}
    (works : ∀ value, outcome = .ok value → Parallel next (work value) (other value)) :
    Parallel next (outcome >>= work) (outcome >>= other) := by
  cases outcome with
  | ok value => exact works value rfl
  | error failure => exact .error failure

theorem returned {f : β → δ} {further : α → δ → Prop} (parallel : Parallel relation first second)
    (keeps : ∀ value result, relation value result → further value (f result)) :
    Parallel further first (second >>= fun result => pure (f result)) := by
  cases parallel with
  | ok related => exact .ok (keeps _ _ related)
  | error failure => exact .error failure

theorem ok_iff (parallel : Parallel relation first second) :
    (∃ value, first = .ok value) ↔ ∃ result, second = .ok result := by
  cases parallel <;> simp

theorem error_iff (parallel : Parallel relation first second) (failure : Failure) :
    first = .error failure ↔ second = .error failure := by
  cases parallel <;> simp

end Parallel

end Outcome

open Outcome

namespace ConstantSeries

open Breakpoints

variable {joined part : ConstantSeries}

theorem join_formed (joinedFormed : WellFormed joined.points) (partFormed : WellFormed part.points) :
    WellFormed (if part.duration.isZero then joined
      else if joined.duration.isZero then part else joined.append part).points := by
  split_ifs with empty joinedEmpty
  · exact joinedFormed
  · exact partFormed
  · exact append_well_formed joinedFormed partFormed

theorem join_duration (joinedFormed : WellFormed joined.points) (partFormed : WellFormed part.points) :
    (if part.duration.isZero then joined
      else if joined.duration.isZero then part else joined.append part).duration =
      joined.duration + part.duration := by
  split_ifs with empty joinedEmpty
  · rw [(Decimal.is_zero_iff _).1 empty, add_zero]
  · rw [(Decimal.is_zero_iff _).1 joinedEmpty, zero_add]
  · exact duration_append joinedFormed partFormed

end ConstantSeries

namespace Waveform

open ConstantSeries Breakpoints Validation

/-- The ends have values, and are as far apart as those of the series. -/
def Flanks (ends : Ends) (series : ConstantSeries) : Prop :=
  ∃ start stop, ends = ⟨some start, some stop, series.duration⟩

def Matches (lowered : Option ConstantSeries) (outlined : Outline) : Prop :=
  ∃ series, lowered = some series ∧ Flanks outlined.ends series

theorem map_ends_flank {ends : Ends} {series : ConstantSeries} (f : Scalar → Scalar)
    (change : Decimal → Decimal) (flanks : Flanks ends series) :
    ∃ changed, mapEnds f ends = .ok changed ∧ Flanks changed (series.map change) := by
  obtain ⟨start, stop, rfl⟩ := flanks
  refine ⟨⟨some (f start), some (f stop), series.duration⟩, rfl, f start, f stop, ?_⟩
  rw [duration_map]

theorem sum_of_ends_flank {leftEnds rightEnds : Ends} {left right : ConstantSeries}
    (leftFormed : WellFormed left.points) (rightFormed : WellFormed right.points)
    (leftFlanks : Flanks leftEnds left) (rightFlanks : Flanks rightEnds right) :
    ∃ ends, sumOfEnds leftEnds rightEnds = .ok ends ∧ Flanks ends (left.plus right) := by
  obtain ⟨start, stop, rfl⟩ := leftFlanks
  obtain ⟨start', stop', rfl⟩ := rightFlanks
  have longest := duration_plus leftFormed rightFormed
  by_cases shorter : left.duration < right.duration
  · refine ⟨⟨some (.add start start'), some stop', right.duration⟩, ?_, .add start start', stop', ?_⟩
    · exact if_pos shorter
    · rw [longest, max_eq_right shorter.le]
  by_cases longer : right.duration < left.duration
  · refine ⟨⟨some (.add start start'), some stop, left.duration⟩, ?_, .add start start', stop, ?_⟩
    · exact (if_neg shorter).trans (if_pos longer)
    · rw [longest, max_eq_left longer.le]
  · refine ⟨⟨some (.add start start'), some (.add stop stop'), left.duration⟩, ?_,
      .add start start', .add stop stop', ?_⟩
    · exact (if_neg shorter).trans (if_neg longer)
    · rw [longest, max_eq_left (not_lt.1 shorter)]

theorem follow_ends_flank {before partEnds : Ends} {joined part whole : ConstantSeries}
    (beforeFlanks : Flanks before joined) (partFlanks : Flanks partEnds part)
    (lasts : whole.duration = joined.duration + part.duration) :
    Flanks (followEnds before partEnds) whole := by
  obtain ⟨start, stop, rfl⟩ := beforeFlanks
  obtain ⟨start', stop', rfl⟩ := partFlanks
  unfold followEnds Flanks
  rw [lasts]
  split_ifs
  · exact ⟨start', stop', rfl⟩
  · exact ⟨start, stop, rfl⟩
  · exact ⟨start, stop', rfl⟩

/-- All parts joined from left to right. The ends so far flank the series so far. -/
theorem concatenate_flanks {serieses : List ConstantSeries} {ends : List Ends} {before : Ends}
    {joined : ConstantSeries} (formed : WellFormed joined.points) (flanks : Flanks before joined)
    (eachFormed : ∀ series ∈ serieses, WellFormed series.points)
    (each : List.Forall₂ Flanks ends serieses) :
    ∃ whole, ConstantSeries.concatenate (some joined) (serieses.map some) = .ok (some whole) ∧
      Flanks (ends.foldl followEnds before) whole := by
  induction each generalizing before joined with
  | nil => exact ⟨joined, rfl, flanks⟩
  | @cons partEnds part ends serieses partFlanks _ ih =>
      have partFormed := eachFormed part List.mem_cons_self
      have joins := follow_ends_flank flanks partFlanks (join_duration formed partFormed)
      rw [List.map_cons, ConstantSeries.concatenate_cons, List.foldl_cons]
      exact ih (join_formed formed partFormed) joins
        fun series member => eachFormed series (List.mem_cons_of_mem _ member)

theorem join_ends_cons {first : Ends} {series : ConstantSeries} (rest : List Ends)
    (flanks : Flanks first series) : joinEnds (first :: rest) = rest.foldl followEnds first := by
  obtain ⟨start, stop, rfl⟩ := flanks
  have follows : followEnds ⟨none, none, 0⟩ ⟨some start, some stop, series.duration⟩ =
      ⟨some start, some stop, series.duration⟩ := by
    unfold followEnds
    rw [if_pos ((Decimal.is_zero_iff 0).2 rfl), zero_add]
  rw [joinEnds, List.foldl_cons, follows]

theorem polynomial_parallel (construct : Unit → String) (length : Decimal)
    (values : List Decimal) :
    Parallel (fun series _ => series.duration = length)
      (ConstantSeries.ofPolynomial construct length values)
      (checkPolynomial .constant construct length values) := by
  unfold ConstantSeries.ofPolynomial checkPolynomial
  generalize Lowering.significant values = terms
  match terms with
  | [] => exact .ok (duration_level length 0)
  | [value] => exact .ok (duration_level length value)
  | value :: slope :: others =>
      have several : decide (1 < (value :: slope :: others).length) = true := by simp
      dsimp only
      rw [several, Bool.true_and]
      by_cases empty : length.isZero = true
      · rw [empty, if_pos rfl]
        exact .ok (duration_level length value)
      · rw [Bool.eq_false_iff.2 empty, if_neg Bool.false_ne_true]
        exact .error _

/-- A waveform without empty sequences, all scalars of which have values. -/
structure Evaluable (bindings : ScalarBindings) (waveform : Waveform) : Prop where
  filled : ∀ node ∈ waveform.exposed, node ≠ .append []
  evaluates : ∀ node ∈ waveform.exposed, ∀ scalar ∈ node.scalars,
    ∃ value, scalar.eval bindings = .ok value

variable {bindings : ScalarBindings}

theorem Evaluable.child {waveform child : Waveform} (evaluable : Evaluable bindings waveform)
    (isExposed : child.exposed ⊆ waveform.exposed) : Evaluable bindings child :=
  ⟨fun node member => evaluable.filled node (isExposed member),
    fun node member => evaluable.evaluates node (isExposed member)⟩

theorem Evaluable.own {waveform : Waveform} (evaluable : Evaluable bindings waveform)
    {scalar : Scalar} (member : scalar ∈ waveform.scalars) :
    ∃ value, scalar.eval bindings = .ok value :=
  evaluable.evaluates waveform (self_mem_exposed waveform) scalar member

section Agreement

variable [Natives]

def Agrees (bindings : ScalarBindings) (waveform : Waveform) : Prop :=
  Parallel Matches (constantSeries? bindings waveform) (outline bindings .constant waveform)

theorem constant_agrees {value duration : Scalar}
    (evaluable : Evaluable bindings (.constant value duration)) :
    Agrees bindings (.constant value duration) := by
  have member : value ∈ (Waveform.constant value duration).scalars := by simp [scalars]
  obtain ⟨number, valueOk⟩ := evaluable.own member
  unfold Agrees
  rw [constantSeries?, outline]
  apply Parallel.same_bind
  intro length _
  rw [valueOk, ok_bind]
  exact .ok ⟨level length number, rfl, value, value, by rw [duration_level]; rfl⟩

theorem ramp_agrees {start stop duration : Scalar}
    (evaluable : Evaluable bindings (.ramp start stop duration)) :
    Agrees bindings (.ramp start stop duration) := by
  have startMember : start ∈ (Waveform.ramp start stop duration).scalars := by simp [scalars]
  have stopMember : stop ∈ (Waveform.ramp start stop duration).scalars := by simp [scalars]
  obtain ⟨first, startOk⟩ := evaluable.own startMember
  obtain ⟨last, stopOk⟩ := evaluable.own stopMember
  unfold Agrees
  rw [constantSeries?, outline]
  apply Parallel.same_bind
  intro length _
  rw [startOk, stopOk, ok_bind, ok_bind]
  dsimp only
  have leveled : Matches (some (level length first)) (.leaf ⟨some start, some stop, length⟩) :=
    ⟨level length first, rfl, start, stop, by rw [duration_level]; rfl⟩
  by_cases empty : length.isZero = true
  · rw [(of_line_ok_iff _ _ _ _).2 ⟨.inr ((Decimal.is_zero_iff length).1 empty), rfl⟩, if_pos empty]
    exact .ok leveled
  rw [if_neg empty, ok_bind, ok_bind]
  by_cases flat : first = last
  · rw [(of_line_ok_iff _ _ _ _).2 ⟨.inl flat, rfl⟩, if_pos flat]
    exact .ok leveled
  · have rising : ofLine (fun _ => (Waveform.ramp start stop duration).text) length first last =
        .error (.unsupported (Waveform.ramp start stop duration).text .constant .risingPiece) := by
      rw [ofLine, if_neg (by simpa using And.intro flat (mt (Decimal.is_zero_iff length).2 empty))]
    rw [rising, if_neg flat]
    exact .error _

theorem poly_agrees (coefficients : List Scalar) (duration : Scalar) :
    Agrees bindings (.poly coefficients duration) := by
  unfold Agrees
  rw [constantSeries?, outline]
  apply Parallel.same_bind
  intro length _
  apply Parallel.same_bind
  intro values _
  apply (polynomial_parallel _ length values).bind
  intro series _ _ lasts
  exact .ok ⟨series, rfl, _, _, by rw [lasts]; rfl⟩

/-- What is known of a waveform that is lowered beside what its outline shows. -/
theorem Agrees.known {waveform : Waveform} {series : ConstantSeries}
    (evaluable : Evaluable bindings waveform) (steps : Steps bindings waveform series) :
    WellFormed series.points ∧ ∃ meaning, signal bindings waveform = .ok meaning ∧ meaning.Total := by
  obtain ⟨_, _, tracks⟩ := steps.tracked evaluable.filled
  exact ⟨tracks.formed, (steps.stepped evaluable.filled).valued⟩

theorem negative_agrees {inner : Waveform} (ih : Agrees bindings inner) :
    Agrees bindings (.negative inner) := by
  unfold Agrees
  rw [constantSeries?, outline]
  apply ih.bind
  rintro _ outlined _ ⟨series, rfl, flanks⟩
  obtain ⟨changed, mapped, changedFlanks⟩ := map_ends_flank .negative (-·) flanks
  rw [mapped]
  exact .ok ⟨_, rfl, changedFlanks⟩

theorem scale_agrees {factor : Scalar} {inner : Waveform}
    (evaluable : Evaluable bindings (.scale factor inner)) (ih : Agrees bindings inner) :
    Agrees bindings (.scale factor inner) := by
  have member : factor ∈ (Waveform.scale factor inner).scalars := by simp [scalars]
  obtain ⟨number, factorOk⟩ := evaluable.own member
  unfold Agrees
  rw [constantSeries?, outline]
  apply ih.bind
  rintro _ outlined _ ⟨series, rfl, flanks⟩
  obtain ⟨changed, mapped, changedFlanks⟩ := map_ends_flank (.mul factor) (number * ·) flanks
  rw [factorOk, mapped]
  exact .ok ⟨_, rfl, changedFlanks⟩

theorem add_agrees {left right : Waveform} (leftEvaluable : Evaluable bindings left)
    (rightEvaluable : Evaluable bindings right) (leftIh : Agrees bindings left)
    (rightIh : Agrees bindings right) : Agrees bindings (.add left right) := by
  unfold Agrees
  rw [constantSeries?, outline]
  apply leftIh.bind
  rintro _ leftOutlined leftSteps ⟨leftSeries, rfl, leftFlanks⟩
  apply rightIh.bind
  rintro _ rightOutlined rightSteps ⟨rightSeries, rfl, rightFlanks⟩
  obtain ⟨ends, summed, flanks⟩ := sum_of_ends_flank (Agrees.known leftEvaluable leftSteps).1
    (Agrees.known rightEvaluable rightSteps).1 leftFlanks rightFlanks
  rw [summed]
  exact .ok ⟨_, rfl, flanks⟩

/-- Once its bounds are in order a slice is cut out and its ends are known. -/
theorem slice_agrees {inner : Waveform} {interval : Interval}
    (evaluable : Evaluable bindings inner) (ih : Agrees bindings inner) :
    Agrees bindings (.slice inner interval) := by
  unfold Agrees
  rw [constantSeries?, outline]
  apply ih.bind
  rintro _ outlined steps ⟨series, rfl, start, stop, ends⟩
  obtain ⟨formed, meaning, means, total⟩ := Agrees.known evaluable steps
  rw [show need (some series) = .ok series from rfl, ok_bind, ends]
  apply Parallel.same_bind
  rintro ⟨lower, upper⟩ bounds
  obtain ⟨lowerBound, upperBound, startOk, stopOk, _, _, nonneg, ordered, reached⟩ :=
    (slice_bounds_ok_iff _ _ _ _ _ _).1 bounds
  obtain ⟨first, firstOk⟩ := bound_value_ok (rfl : some start = some start) means total startOk
  obtain ⟨last, lastOk⟩ := bound_value_ok (rfl : some stop = some stop) means total stopOk
  have sliced : series.slice lower upper = .ok _ :=
    (slice_ok_iff lower upper _).2 ⟨⟨nonneg, ordered, reached⟩, rfl⟩
  -- Cutting cannot fail within the bounds, and a stepped waveform has values at both of them.
  dsimp only
  rw [sliced, firstOk, lastOk]
  exact .ok ⟨_, rfl, first, last, by rw [duration_slice formed sliced]; rfl⟩

theorem all_agree {parts : List Waveform} (each : ∀ part ∈ parts, Agrees bindings part) :
    Parallel (List.Forall₂ Matches) (constantSeriesAll bindings parts)
      (outlineAll bindings .constant parts) := by
  induction parts with
  | nil => exact .ok .nil
  | cons part rest ih =>
      rw [constantSeriesAll, outlineAll]
      apply (each part List.mem_cons_self).bind
      intro lowered outlined _ matched
      apply (ih fun other member => each other (List.mem_cons_of_mem _ member)).bind
      intro others otherOutlines _ othersMatched
      exact .ok (.cons matched othersMatched)

theorem append_agrees {parts : List Waveform} (evaluable : Evaluable bindings (.append parts))
    (partEvaluable : ∀ part ∈ parts, Evaluable bindings part)
    (each : ∀ part ∈ parts, Agrees bindings part) : Agrees bindings (.append parts) := by
  unfold Agrees
  rw [constantSeries?, outline]
  apply (all_agree each).bind
  intro lowered outlines allLower matched
  rw [constant_series_all_ok_iff] at allLower
  have matchedFlank : ∃ serieses : List ConstantSeries, lowered = serieses.map some ∧
      List.Forall₂ Flanks (outlines.map Outline.ends) serieses := by
    clear allLower
    induction matched with
    | nil => exact ⟨[], rfl, .nil⟩
    | cons matched _ ih =>
        obtain ⟨series, rfl, flanks⟩ := matched
        obtain ⟨serieses, rfl, related⟩ := ih
        exact ⟨series :: serieses, rfl, .cons flanks related⟩
  obtain ⟨serieses, rfl, flank⟩ := matchedFlank
  have steps := List.forall₂_map_right_iff.1 allLower
  have eachFormed : ∀ series ∈ serieses, WellFormed series.points := by
    intro series member
    obtain ⟨part, partMember, partSteps⟩ := source_of_mem steps member
    exact (Agrees.known (partEvaluable part partMember) partSteps).1
  cases serieses with
  | nil =>
      cases steps
      exact absurd rfl (evaluable.filled (.append []) (by simp [exposed]))
  | cons first rest =>
      generalize outlines.map Outline.ends = ends at flank
      cases flank with
      | cons firstFlanks restFlank =>
          obtain ⟨whole, joins, wholeFlanks⟩ := concatenate_flanks
            (eachFormed first List.mem_cons_self) firstFlanks
            (fun series member => eachFormed series (List.mem_cons_of_mem _ member)) restFlank
          rw [← join_ends_cons _ firstFlanks] at wholeFlanks
          rw [List.map_cons, ConstantSeries.concatenate, joins]
          exact .ok ⟨whole, rfl, wholeFlanks⟩

/-- Samples are taken the first time a value is asked for, and then by both. -/
theorem sample_agrees (inner : Waveform) (step : Scalar) (interpolation : Interpolation) :
    Agrees bindings (.sample inner step interpolation) := by
  unfold Agrees
  cases interpolation with
  | linear =>
      rw [constantSeries?, outline]
      exact .error _
  | constant =>
      have sameKind : Interpolation.constant = interpolationFor .constant := rfl
      rw [constantSeries?, outline, if_pos sameKind]
      unfold Lowering.sampled sampledEnds
      rw [duration_eq_map_signal, signal]
      cases means : signal bindings inner with
      | error failure => exact .error failure
      | ok meaning =>
          have nonneg := (signal_bounded bindings inner meaning means).nonneg
          simp only [ok_bind, Functor.map, Except.map, pure_bind]
          cases found : Signal.samplePoints (fun _ => (Waveform.sample inner step .constant).text)
            meaning (step.eval bindings) .constant with
          | error failure =>
              have missing : (Signal.sampled .constant (.error failure) meaning.duration).value 0 =
                  .error failure := Signal.within_inside le_rfl nonneg
              rw [missing]
              exact .error failure
          | ok points =>
              have total := Signal.sampled_total .constant points meaning.duration
              obtain ⟨start, startOk⟩ := total 0
              obtain ⟨stop, stopOk⟩ := total meaning.duration
              have lasts := Signal.duration_of_samples found
              rw [startOk, stopOk]
              refine .ok ⟨⟨_⟩, rfl, .literal start, .literal stop, ?_⟩
              rw [ConstantSeries.duration, lasts]
              rfl

theorem agrees_of_evaluable (waveform : Waveform) (evaluable : Evaluable bindings waveform) :
    Agrees bindings waveform := by
  induction waveform using Waveform.parts_induction with
  | constant value duration => exact constant_agrees evaluable
  | ramp start stop duration => exact ramp_agrees evaluable
  | poly coefficients duration => exact poly_agrees coefficients duration
  | native name function duration parameters =>
      unfold Agrees
      rw [constantSeries?, outline]
      exact .error _
  | negative inner ih => exact negative_agrees (ih (evaluable.child (by simp [exposed])))
  | add left right leftIh rightIh =>
      have leftEvaluable : Evaluable bindings left := evaluable.child (by simp [exposed])
      have rightEvaluable : Evaluable bindings right := evaluable.child (by simp [exposed])
      exact add_agrees leftEvaluable rightEvaluable (leftIh leftEvaluable) (rightIh rightEvaluable)
  | scale factor inner ih =>
      exact scale_agrees evaluable (ih (evaluable.child (by simp [exposed])))
  | slice inner interval ih =>
      have innerEvaluable : Evaluable bindings inner := evaluable.child (by simp [exposed])
      exact slice_agrees innerEvaluable (ih innerEvaluable)
  | append parts ih =>
      have partEvaluable : ∀ part ∈ parts, Evaluable bindings part := fun part member =>
        ⟨exposed_of_part evaluable.filled part member,
          exposed_of_part evaluable.evaluates part member⟩
      exact append_agrees evaluable partEvaluable fun part member =>
        ih part member (partEvaluable part member)
  | record name inner side ih =>
      have agrees := ih (evaluable.child (by simp [exposed]))
      unfold Agrees
      rw [constantSeries?, outline]
      exact agrees.returned fun _ _ matched => matched
  | sample inner step interpolation _ => exact sample_agrees inner step interpolation
  | smooth inner radius kernel _ =>
      unfold Agrees
      rw [constantSeries?, outline]
      exact .error _
  | aligned inner alignment fill ih =>
      have agrees := ih (evaluable.child (by simp [exposed]))
      unfold Agrees
      rw [constantSeries?, outline]
      exact agrees.returned fun _ _ matched => matched

theorem validates_in_parallel (waveform : Waveform) (evaluable : Evaluable bindings waveform) :
    Parallel (fun _ _ => True) (lowerConstant bindings waveform)
      (validate bindings .constant waveform) := by
  have agrees : Parallel Matches (constantSeries? bindings waveform)
      (outline bindings .constant waveform) := agrees_of_evaluable waveform evaluable
  apply agrees.bind
  rintro _ outlined _ ⟨series, rfl, _⟩
  exact .ok trivial

/-- The validator of constant series accepts what lowering does, and fails in the same way. -/
theorem validate_constant_iff_lower (bindings : ScalarBindings) (waveform : Waveform)
    (filled : ∀ node ∈ waveform.exposed, node ≠ .append [])
    (evaluates : ∀ node ∈ waveform.exposed, ∀ scalar ∈ node.scalars,
      ∃ value, scalar.eval bindings = .ok value) :
    (validate bindings .constant waveform = .ok () ↔
        ∃ series, lowerConstant bindings waveform = .ok series) ∧
      ∀ failure, validate bindings .constant waveform = .error failure ↔
        lowerConstant bindings waveform = .error failure := by
  have parallel := validates_in_parallel waveform ⟨filled, evaluates⟩
  constructor
  · rw [parallel.ok_iff]
    exact ⟨fun valid => ⟨(), valid⟩, fun ⟨_, valid⟩ => valid⟩
  · intro failure
    exact (parallel.error_iff failure).symm

end Agreement

def sampledThenRising : Waveform :=
  .append [.sample (.ramp (.literal 0) (.literal 4) (.literal 2)) (.literal 1) .constant,
    .slice (.ramp (.literal 0) (.literal 1) (.literal 1)) ⟨none, some (.literal 1)⟩]

theorem validate_constant_iff_lower_sampled :
    (∃ series, lowerConstant .empty steppedSum = .ok series) ∧
      ∃ failure, lowerConstant .empty sampledThenRising = .error failure ∧
        validate .empty .constant sampledThenRising = .error failure := by
  have summed := validate_constant_iff_lower .empty steppedSum
    (by simp [steppedSum, exposed, exposedAll]) (by decide)
  have rises := validate_constant_iff_lower .empty sampledThenRising
    (by simp [sampledThenRising, exposed, exposedAll]) (by decide)
  exact ⟨summed.1.1 rfl, _, (rises.2 _).1 rfl, rfl⟩

end Waveform

end Analog
