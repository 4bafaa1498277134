import Analog.Proofs.CanonicalScalars
import Analog.Proofs.Durations
import Analog.Proofs.SignalRefinement

/-!
# Waveforms whose scalars have values

If all scalars of a waveform have values, its meaning is given by these values, one rule for
each way of building waveforms. Equal waveforms then have meanings that refine each other,
and the duration as an expression has the duration as its value.
-/

set_option autoImplicit false

namespace Analog.Waveform

open Signal

/-- Every scalar in a waveform is tidy and exact and has a value. -/
def Proper (bindings : ScalarBindings) (waveform : Waveform) : Prop :=
  ∀ node ∈ waveform.nodes, ∀ scalar ∈ node.scalars, ∃ value, Scalar.Means bindings scalar value

section Proper

variable {bindings : ScalarBindings}

theorem proper_iff (waveform : Waveform) :
    Proper bindings waveform ↔
      (∀ scalar ∈ waveform.scalars, ∃ value, Scalar.Means bindings scalar value) ∧
        ∀ child ∈ waveform.children, Proper bindings child :=
  each_node_iff _ waveform

theorem each_means_iff (operands : List Scalar) :
    (∀ operand ∈ operands, ∃ value, Scalar.Means bindings operand value) ↔
      ∃ values, List.Forall₂ (Scalar.Means bindings) operands values := by
  constructor
  · intro each
    induction operands with
    | nil => exact ⟨[], List.Forall₂.nil⟩
    | cons operand rest ih =>
        obtain ⟨values, mean⟩ := ih fun other member => each other (by simp [member])
        obtain ⟨number, means⟩ := each operand (by simp)
        exact ⟨number :: values, List.Forall₂.cons means mean⟩
  · rintro ⟨values, mean⟩ operand member
    obtain ⟨number, _, means⟩ := Outcome.target_of_mem mean member
    exact ⟨number, means⟩

theorem bound_means_iff (bound : Option Scalar) :
    (∀ given ∈ bound.toList, ∃ value, Scalar.Means bindings given value) ↔
      ∃ number, Scalar.BoundMeans bindings bound number := by
  unfold Scalar.BoundMeans
  cases bound with
  | none => simpa using ⟨none, Option.Rel.none⟩
  | some given =>
      simp only [Option.toList_some, List.mem_singleton, forall_eq]
      constructor
      · rintro ⟨value, means⟩
        exact ⟨some value, .some means⟩
      · rintro ⟨number, means⟩
        cases means with
        | some means => exact ⟨_, means⟩

theorem eval_all_of_means {operands : List Scalar} {values : List Decimal}
    (mean : List.Forall₂ (Scalar.Means bindings) operands values) :
    Scalar.evalAll bindings operands = .ok values :=
  (Scalar.eval_all_ok_iff _ _).2 (mean.imp fun _ _ means => means.evaluates)

theorem known_of_means {operands : List Scalar} {values : List Decimal}
    (mean : List.Forall₂ (Scalar.Means bindings) operands values) :
    List.Forall₂ (Scalar.Known bindings) operands values :=
  mean.imp fun _ _ means => means.isKnown

theorem values_of_same {lefts rights : List Scalar} {values values' : List Decimal}
    (equal : sameScalars lefts rights = true)
    (known : List.Forall₂ (Scalar.Known bindings) lefts values)
    (known' : List.Forall₂ (Scalar.Known bindings) rights values') : values = values' := by
  induction known generalizing rights values' with
  | nil =>
      cases known' with
      | nil => rfl
      | cons _ _ => exact absurd equal (by simp [sameScalars])
  | cons first _ ih =>
      cases known' with
      | nil => exact absurd equal (by simp [sameScalars])
      | cons first' rest' =>
          rw [sameScalars, Bool.and_eq_true] at equal
          rw [first.of_same first' equal.1, ih equal.2 rest']

theorem bound_of_same {left right : Option Scalar} {number number' : Option Decimal}
    (equal : Scalar.sameBound left right = true) (means : Scalar.BoundMeans bindings left number)
    (means' : Scalar.BoundMeans bindings right number') : number = number' := by
  rw [Scalar.same_bound_iff] at equal
  cases equal with
  | none =>
      cases means
      cases means'
      rfl
  | some equal =>
      cases means with
      | some means =>
          cases means' with
          | some means' => rw [means.of_same means' equal]

theorem sum_of_durations_exact {durations : List Scalar}
    (each : ∀ duration ∈ durations, Scalar.ExactByOne bindings duration) :
    Scalar.ExactByOne bindings (sumOfDurations durations) := by
  have folded : ∀ (rest : List Scalar) (first : Scalar), Scalar.ExactByOne bindings first →
      (∀ duration ∈ rest, Scalar.ExactByOne bindings duration) →
      Scalar.ExactByOne bindings (rest.foldl Scalar.add first) := by
    intro rest first firstExact restExact
    induction rest generalizing first with
    | nil => exact firstExact
    | cons duration others ih =>
        exact ih (.add first duration) ⟨firstExact, restExact duration (by simp)⟩
          fun other member => restExact other (by simp [member])
  cases durations with
  | nil => exact trivial
  | cons first rest =>
      exact folded rest first (each first (by simp)) fun other member => each other (by simp [member])

theorem symbolic_duration_exact (waveform : Waveform)
    (exact : ∀ node ∈ waveform.nodes, ∀ scalar ∈ node.scalars, Scalar.ExactByOne bindings scalar) :
    Scalar.ExactByOne bindings waveform.symbolicDuration := by
  induction waveform using Waveform.parts_induction with
  | constant _ duration
  | ramp _ _ duration
  | poly _ duration
  | native _ _ duration _ =>
      exact ((each_node_iff _ _).1 exact).1 duration (by simp [scalars])
  | add left right leftIh rightIh =>
      rw [each_node_iff] at exact
      rw [symbolicDuration, Scalar.maximum, Scalar.ExactByOne, Scalar.exact_by_one_all_iff]
      intro operand member
      have either := Scalar.mem_of_mem_unique member
      simp only [List.mem_cons, List.not_mem_nil, or_false] at either
      rcases either with rfl | rfl
      · exact leftIh (exact.2 left (by simp [children]))
      · exact rightIh (exact.2 right (by simp [children]))
  | slice inner interval ih =>
      rw [each_node_iff] at exact
      have boundsExact := exact.1
      simp only [scalars, Interval.bounds, List.mem_append, Option.mem_toList] at boundsExact
      have boundExact : ∀ bound : Option Scalar,
          (∀ given ∈ bound, Scalar.ExactByOne bindings given) →
          Scalar.ExactByOneBound bindings bound := by
        intro bound each
        cases bound with
        | none => exact trivial
        | some given => exact each given rfl
      exact ⟨ih (exact.2 inner (by simp [children])),
        boundExact _ fun given member => boundsExact given (Or.inl member),
        boundExact _ fun given member => boundsExact given (Or.inr member)⟩
  | append parts ih =>
      rw [each_node_iff] at exact
      apply sum_of_durations_exact
      have partsExact : ∀ part ∈ parts, ∀ node ∈ part.nodes, ∀ scalar ∈ node.scalars,
          Scalar.ExactByOne bindings scalar := exact.2
      clear exact
      induction parts with
      | nil => simp [symbolicDurations]
      | cons part rest restIh =>
          simp only [symbolicDurations, List.mem_cons, forall_eq_or_imp]
          exact ⟨ih part (by simp) (partsExact part (by simp)),
            restIh (fun other member => ih other (by simp [member]))
              fun other member => partsExact other (by simp [member])⟩
  | negative inner ih
  | scale _ inner ih
  | record _ inner _ ih
  | sample inner _ _ ih
  | smooth inner _ _ ih
  | aligned inner _ _ ih =>
      rw [each_node_iff] at exact
      exact ih (exact.2 inner (by simp [children]))

end Proper

variable [Natives] {bindings : ScalarBindings}

/-- A waveform whose scalars all have values, and its meaning. -/
structure Means (bindings : ScalarBindings) (waveform : Waveform) (meaning : Signal) : Prop where
  proper : Proper bindings waveform
  means : waveform.signal bindings = .ok meaning

theorem Means.bounded {waveform : Waveform} {meaning : Signal}
    (given : Means bindings waveform meaning) : Bounded meaning :=
  signal_bounded bindings waveform meaning given.means

theorem Means.unique {waveform : Waveform} {first second : Signal}
    (one : Means bindings waveform first) (two : Means bindings waveform second) :
    first = second := by
  have same := one.means.symm.trans two.means
  rwa [Except.ok.injEq] at same

theorem leaf_means_iff {waveform : Waveform} {duration : Scalar} {shape : Decimal → Signal}
    (isLeaf : waveform.children = []) (hasDuration : duration ∈ waveform.scalars)
    (shaped : waveform.signal bindings = (do
      let length ← leafDuration bindings duration
      return shape length)) (meaning : Signal) :
    Means bindings waveform meaning ↔
      (∀ scalar ∈ waveform.scalars, ∃ value, Scalar.Means bindings scalar value) ∧
        ∃ length, Scalar.Means bindings duration length ∧ 0 ≤ length ∧ meaning = shape length := by
  constructor
  · rintro ⟨proper, means⟩
    rw [proper_iff] at proper
    obtain ⟨length, durationMeans⟩ := proper.1 duration hasDuration
    rw [shaped, Outcome.bind_ok_iff] at means
    obtain ⟨found, lasts, same⟩ := means
    obtain ⟨foundOk, nonneg⟩ := (leaf_duration_ok_iff _ _ _).1 lasts
    rw [durationMeans.evaluates, Except.ok.injEq] at foundOk
    subst foundOk
    rw [Outcome.pure_ok_iff] at same
    exact ⟨proper.1, length, durationMeans, nonneg, same.symm⟩
  · rintro ⟨each, length, durationMeans, nonneg, rfl⟩
    constructor
    · rw [proper_iff, isLeaf]
      exact ⟨each, by simp⟩
    · rw [shaped, (leaf_duration_ok_iff _ _ _).2 ⟨durationMeans.evaluates, nonneg⟩]
      rfl

theorem constant_means_iff (value duration : Scalar) (meaning : Signal) :
    Means bindings (.constant value duration) meaning ↔
      ∃ number length, Scalar.Means bindings value number ∧ Scalar.Means bindings duration length ∧
        0 ≤ length ∧ meaning = within length fun _ => .ok number := by
  rw [leaf_means_iff rfl (by simp [scalars]) (signal.eq_def _ _) meaning]
  constructor
  · rintro ⟨each, length, durationMeans, nonneg, rfl⟩
    obtain ⟨number, valueMeans⟩ := each value (by simp [scalars])
    refine ⟨number, length, valueMeans, durationMeans, nonneg, ?_⟩
    rw [valueMeans.evaluates]
  · rintro ⟨number, length, valueMeans, durationMeans, nonneg, rfl⟩
    refine ⟨?_, length, durationMeans, nonneg, by rw [valueMeans.evaluates]⟩
    simp only [scalars, List.mem_cons, List.not_mem_nil, or_false, forall_eq_or_imp, forall_eq]
    exact ⟨⟨number, valueMeans⟩, length, durationMeans⟩

theorem ramp_means_iff (start stop duration : Scalar) (meaning : Signal) :
    Means bindings (.ramp start stop duration) meaning ↔
      ∃ first last length, Scalar.Means bindings start first ∧ Scalar.Means bindings stop last ∧
        Scalar.Means bindings duration length ∧ 0 ≤ length ∧
        meaning = line (.ok first) (.ok last) length := by
  rw [leaf_means_iff rfl (by simp [scalars]) (signal.eq_def _ _) meaning]
  constructor
  · rintro ⟨each, length, durationMeans, nonneg, rfl⟩
    obtain ⟨first, startMeans⟩ := each start (by simp [scalars])
    obtain ⟨last, stopMeans⟩ := each stop (by simp [scalars])
    refine ⟨first, last, length, startMeans, stopMeans, durationMeans, nonneg, ?_⟩
    rw [startMeans.evaluates, stopMeans.evaluates]
  · rintro ⟨first, last, length, startMeans, stopMeans, durationMeans, nonneg, rfl⟩
    refine ⟨?_, length, durationMeans, nonneg,
      by rw [startMeans.evaluates, stopMeans.evaluates]⟩
    simp only [scalars, List.mem_cons, List.not_mem_nil, or_false, forall_eq_or_imp, forall_eq]
    exact ⟨⟨first, startMeans⟩, ⟨last, stopMeans⟩, length, durationMeans⟩

theorem poly_means_iff (coefficients : List Scalar) (duration : Scalar) (meaning : Signal) :
    Means bindings (.poly coefficients duration) meaning ↔
      ∃ values length, List.Forall₂ (Scalar.Means bindings) coefficients values ∧
        Scalar.Means bindings duration length ∧ 0 ≤ length ∧
        meaning = within length fun time => .ok (polynomialValue values time) := by
  rw [leaf_means_iff rfl (by simp [scalars]) (signal.eq_def _ _) meaning]
  constructor
  · rintro ⟨each, length, durationMeans, nonneg, rfl⟩
    obtain ⟨values, mean⟩ := (each_means_iff coefficients).1 fun one member =>
      each one (by simp [scalars, member])
    refine ⟨values, length, mean, durationMeans, nonneg, ?_⟩
    rw [eval_all_of_means mean]
    rfl
  · rintro ⟨values, length, mean, durationMeans, nonneg, rfl⟩
    refine ⟨?_, length, durationMeans, nonneg, by rw [eval_all_of_means mean]; rfl⟩
    intro scalar member
    rcases List.mem_append.1 member with coefficient | last
    · exact (each_means_iff coefficients).2 ⟨values, mean⟩ scalar coefficient
    · rw [List.mem_singleton.1 last]
      exact ⟨length, durationMeans⟩

theorem native_means_iff (name function : String) (duration : Scalar) (parameters : List Scalar)
    (meaning : Signal) :
    Means bindings (.native name function duration parameters) meaning ↔
      ∃ values length, List.Forall₂ (Scalar.Means bindings) parameters values ∧
        Scalar.Means bindings duration length ∧ 0 ≤ length ∧
        meaning = within length fun time => Natives.run function time values := by
  rw [leaf_means_iff rfl (by simp [scalars]) (signal.eq_def _ _) meaning]
  constructor
  · rintro ⟨each, length, durationMeans, nonneg, rfl⟩
    obtain ⟨values, mean⟩ := (each_means_iff parameters).1 fun one member =>
      each one (by simp [scalars, member])
    refine ⟨values, length, mean, durationMeans, nonneg, ?_⟩
    rw [eval_all_of_means mean]
    rfl
  · rintro ⟨values, length, mean, durationMeans, nonneg, rfl⟩
    refine ⟨?_, length, durationMeans, nonneg, by rw [eval_all_of_means mean]; rfl⟩
    intro scalar member
    rcases List.mem_cons.1 member with rfl | parameter
    · exact ⟨length, durationMeans⟩
    · exact (each_means_iff parameters).2 ⟨values, mean⟩ scalar parameter

theorem negative_means_iff (inner : Waveform) (meaning : Signal) :
    Means bindings (.negative inner) meaning ↔
      ∃ innerMeaning, Means bindings inner innerMeaning ∧ meaning = negate innerMeaning := by
  constructor
  · rintro ⟨proper, means⟩
    rw [proper_iff] at proper
    rw [signal, Outcome.bind_ok_iff] at means
    obtain ⟨innerMeaning, innerMeans, same⟩ := means
    rw [Outcome.pure_ok_iff] at same
    exact ⟨innerMeaning, ⟨proper.2 inner (by simp [children]), innerMeans⟩, same.symm⟩
  · rintro ⟨innerMeaning, innerMeans, rfl⟩
    refine ⟨(proper_iff _).2 ⟨by simp [scalars], by simpa [children] using innerMeans.proper⟩, ?_⟩
    rw [signal, innerMeans.means]
    rfl

theorem add_means_iff (left right : Waveform) (meaning : Signal) :
    Means bindings (.add left right) meaning ↔
      ∃ leftMeaning rightMeaning, Means bindings left leftMeaning ∧
        Means bindings right rightMeaning ∧ meaning = plus leftMeaning rightMeaning := by
  constructor
  · rintro ⟨proper, means⟩
    rw [proper_iff] at proper
    rw [signal, Outcome.bind_ok_iff] at means
    obtain ⟨leftMeaning, leftMeans, rest⟩ := means
    obtain ⟨rightMeaning, rightMeans, same⟩ := (Outcome.bind_ok_iff _ _ _).1 rest
    rw [Outcome.pure_ok_iff] at same
    exact ⟨leftMeaning, rightMeaning, ⟨proper.2 left (by simp [children]), leftMeans⟩,
      ⟨proper.2 right (by simp [children]), rightMeans⟩, same.symm⟩
  · rintro ⟨leftMeaning, rightMeaning, leftMeans, rightMeans, rfl⟩
    refine ⟨(proper_iff _).2 ⟨by simp [scalars], ?_⟩, ?_⟩
    · simpa [children] using ⟨leftMeans.proper, rightMeans.proper⟩
    · rw [signal, leftMeans.means, Outcome.ok_bind, rightMeans.means]
      rfl

/-- What waveforms with one scalar around another waveform have in common. -/
theorem wrapped_means_iff {waveform inner : Waveform} {scalar : Scalar}
    (shape : Outcome Decimal → Signal → Signal) (isWrapper : waveform.children = [inner])
    (hasScalar : waveform.scalars = [scalar])
    (shaped : waveform.signal bindings = (do
      let innerMeaning ← inner.signal bindings
      return shape (scalar.eval bindings) innerMeaning)) (meaning : Signal) :
    Means bindings waveform meaning ↔
      ∃ number innerMeaning, Scalar.Means bindings scalar number ∧
        Means bindings inner innerMeaning ∧ meaning = shape (.ok number) innerMeaning := by
  constructor
  · rintro ⟨proper, means⟩
    rw [proper_iff, isWrapper, hasScalar] at proper
    obtain ⟨number, scalarMeans⟩ := proper.1 scalar (by simp)
    rw [shaped, Outcome.bind_ok_iff] at means
    obtain ⟨innerMeaning, innerMeans, same⟩ := means
    rw [Outcome.pure_ok_iff, scalarMeans.evaluates] at same
    exact ⟨number, innerMeaning, scalarMeans, ⟨proper.2 inner (by simp), innerMeans⟩, same.symm⟩
  · rintro ⟨number, innerMeaning, scalarMeans, innerMeans, rfl⟩
    constructor
    · rw [proper_iff, isWrapper, hasScalar]
      simpa using ⟨⟨number, scalarMeans⟩, innerMeans.proper⟩
    · rw [shaped, innerMeans.means, scalarMeans.evaluates]
      rfl

theorem scale_means_iff (factor : Scalar) (inner : Waveform) (meaning : Signal) :
    Means bindings (.scale factor inner) meaning ↔
      ∃ number innerMeaning, Scalar.Means bindings factor number ∧
        Means bindings inner innerMeaning ∧ meaning = scaled (.ok number) innerMeaning :=
  wrapped_means_iff scaled rfl rfl (signal.eq_def _ _) meaning

theorem sample_means_iff (inner : Waveform) (step : Scalar) (interpolation : Interpolation)
    (meaning : Signal) :
    Means bindings (.sample inner step interpolation) meaning ↔
      ∃ number innerMeaning, Scalar.Means bindings step number ∧
        Means bindings inner innerMeaning ∧
        meaning = sampled interpolation
          (Signal.samplePoints (fun _ => (Waveform.sample inner step interpolation).text)
            innerMeaning (.ok number) interpolation) innerMeaning.duration :=
  wrapped_means_iff (fun number innerMeaning => sampled interpolation
    (Signal.samplePoints (fun _ => (Waveform.sample inner step interpolation).text) innerMeaning
      number interpolation) innerMeaning.duration) rfl rfl (signal.eq_def _ _) meaning

theorem smooth_means_iff (inner : Waveform) (radius : Scalar) (kernel : Kernel)
    (meaning : Signal) :
    Means bindings (.smooth inner radius kernel) meaning ↔
      ∃ number innerMeaning, Scalar.Means bindings radius number ∧
        Means bindings inner innerMeaning ∧
        meaning = smoothed kernel (.ok number) innerMeaning :=
  wrapped_means_iff (smoothed kernel) rfl rfl (signal.eq_def _ _) meaning

theorem slice_means_iff (inner : Waveform) (interval : Interval) (meaning : Signal) :
    Means bindings (.slice inner interval) meaning ↔
      ∃ start stop innerMeaning, Scalar.BoundMeans bindings interval.start start ∧
        Scalar.BoundMeans bindings interval.stop stop ∧ Means bindings inner innerMeaning ∧
        (0 ≤ start.getD 0 ∧ start.getD 0 ≤ stop.getD innerMeaning.duration ∧
          stop.getD innerMeaning.duration ≤ innerMeaning.duration) ∧
        meaning = cut (start.getD 0) (stop.getD innerMeaning.duration) innerMeaning := by
  constructor
  · rintro ⟨proper, means⟩
    rw [proper_iff] at proper
    obtain ⟨start, startMeans⟩ := (bound_means_iff interval.start).1 fun given member =>
      proper.1 given (by simp only [scalars, Interval.bounds, List.mem_append, member, true_or])
    obtain ⟨stop, stopMeans⟩ := (bound_means_iff interval.stop).1 fun given member =>
      proper.1 given (by simp only [scalars, Interval.bounds, List.mem_append, member, or_true])
    rw [signal, Outcome.bind_ok_iff] at means
    obtain ⟨innerMeaning, innerMeans, rest⟩ := means
    obtain ⟨⟨lower, upper⟩, bounds, same⟩ := (Outcome.bind_ok_iff _ _ _).1 rest
    rw [Outcome.pure_ok_iff] at same
    obtain ⟨startFound, stopFound, startOk, stopOk, rfl, rfl, ordered⟩ :=
      (slice_bounds_ok_iff _ _ _ _ _ _).1 bounds
    rw [((Scalar.bound_means_iff _ _).1 startMeans).2.2, Except.ok.injEq] at startOk
    rw [((Scalar.bound_means_iff _ _).1 stopMeans).2.2, Except.ok.injEq] at stopOk
    subst startOk stopOk
    exact ⟨start, stop, innerMeaning, startMeans, stopMeans,
      ⟨proper.2 inner (by simp [children]), innerMeans⟩, ordered, same.symm⟩
  · rintro ⟨start, stop, innerMeaning, startMeans, stopMeans, innerMeans, ordered, rfl⟩
    constructor
    · rw [proper_iff]
      refine ⟨?_, by simpa [children] using innerMeans.proper⟩
      intro scalar member
      rcases List.mem_append.1 member with first | second
      · exact (bound_means_iff interval.start).2 ⟨start, startMeans⟩ scalar first
      · exact (bound_means_iff interval.stop).2 ⟨stop, stopMeans⟩ scalar second
    · have bounds := (slice_bounds_ok_iff bindings
        (fun _ => (Waveform.slice inner interval).text) interval innerMeaning.duration _ _).2
        ⟨start, stop, ((Scalar.bound_means_iff _ _).1 startMeans).2.2,
          ((Scalar.bound_means_iff _ _).1 stopMeans).2.2, rfl, rfl, ordered⟩
      rw [signal, innerMeans.means, Outcome.ok_bind, bounds]
      rfl

theorem append_means_iff (parts : List Waveform) (meaning : Signal) :
    Means bindings (.append parts) meaning ↔
      ∃ meanings, List.Forall₂ (Means bindings) parts meanings ∧
        meaning = concatenate meanings := by
  constructor
  · rintro ⟨proper, means⟩
    rw [proper_iff] at proper
    rw [signal, Outcome.bind_ok_iff] at means
    obtain ⟨meanings, allMean, same⟩ := means
    rw [Outcome.pure_ok_iff] at same
    refine ⟨meanings, ?_, same.symm⟩
    rw [signals_ok_iff] at allMean
    have each : ∀ part ∈ parts, Proper bindings part := proper.2
    clear proper same
    induction allMean with
    | nil => exact List.Forall₂.nil
    | cons partMeans _ ih =>
        exact List.Forall₂.cons ⟨each _ (by simp), partMeans⟩
          (ih fun other member => each other (by simp [member]))
  · rintro ⟨meanings, mean, rfl⟩
    constructor
    · refine (proper_iff _).2 ⟨by simp [scalars], fun part member => ?_⟩
      obtain ⟨_, _, partMeans⟩ := Outcome.target_of_mem mean member
      exact partMeans.proper
    · have allMean := (signals_ok_iff bindings parts meanings).2
        (mean.imp fun _ _ partMeans => partMeans.means)
      rw [signal, allMean]
      rfl

theorem record_means_iff (name : String) (inner : Waveform) (side : Side) (meaning : Signal) :
    Means bindings (.record name inner side) meaning ↔ Means bindings inner meaning := by
  constructor
  · rintro ⟨proper, means⟩
    rw [proper_iff] at proper
    exact ⟨proper.2 inner (by simp [children]), means⟩
  · rintro ⟨proper, means⟩
    exact ⟨(proper_iff _).2 ⟨by simp [scalars], by simpa [children] using proper⟩, means⟩

theorem aligned_means_iff (inner : Waveform) (alignment : Side) (fill : FillValue)
    (meaning : Signal) :
    Means bindings (.aligned inner alignment fill) meaning ↔
      (∀ scalar ∈ fill.scalars, ∃ value, Scalar.Means bindings scalar value) ∧
        Means bindings inner meaning := by
  constructor
  · rintro ⟨proper, means⟩
    rw [proper_iff] at proper
    exact ⟨proper.1, proper.2 inner (by simp [children]), means⟩
  · rintro ⟨each, proper, means⟩
    exact ⟨(proper_iff _).2 ⟨each, by simpa [children] using proper⟩, means⟩

theorem Means.all_bounded {parts : List Waveform} {meanings : List Signal}
    (mean : List.Forall₂ (Means bindings) parts meanings) : ∀ part ∈ meanings, Bounded part := by
  intro part member
  obtain ⟨_, _, means⟩ := Outcome.source_of_mem mean member
  exact means.bounded

theorem all_alike_of_same {parts parts' : List Waveform} {meanings meanings' : List Signal}
    (each : ∀ part ∈ parts, ∀ other meaning meaning', Means bindings part meaning →
      Means bindings other meaning' → part.same other = true → Alike meaning meaning')
    (mean : List.Forall₂ (Means bindings) parts meanings)
    (mean' : List.Forall₂ (Means bindings) parts' meanings')
    (equal : sameAll parts parts' = true) :
    List.Forall₂ Alike meanings meanings' := by
  induction mean generalizing parts' meanings' with
  | nil =>
      cases mean' with
      | nil => exact List.Forall₂.nil
      | cons _ _ => exact absurd equal (by simp [sameAll])
  | cons means _ ih =>
      cases mean' with
      | nil => exact absurd equal (by simp [sameAll])
      | cons means' rest' =>
          rw [sameAll, Bool.and_eq_true] at equal
          exact List.Forall₂.cons (each _ (by simp) _ _ _ means means' equal.1)
            (ih (fun part member => each part (by simp [member])) rest' equal.2)

theorem alike_of_same (first second : Waveform) (meaning meaning' : Signal)
    (means : Means bindings first meaning) (means' : Means bindings second meaning')
    (equal : first.same second = true) : Alike meaning meaning' := by
  induction first using Waveform.parts_induction generalizing second meaning meaning' with
  | constant value duration =>
      cases second with
      | constant value' duration' =>
          rw [same, Bool.and_eq_true] at equal
          obtain ⟨number, length, valueMeans, durationMeans, _, rfl⟩ :=
            (constant_means_iff _ _ _).1 means
          obtain ⟨number', length', valueMeans', durationMeans', _, rfl⟩ :=
            (constant_means_iff _ _ _).1 means'
          rw [valueMeans.of_same valueMeans' equal.1, durationMeans.of_same durationMeans' equal.2]
          exact alike_of_eq rfl
      | _ => exact absurd equal (by simp [same])
  | ramp start stop duration =>
      cases second with
      | ramp start' stop' duration' =>
          rw [same, Bool.and_eq_true, Bool.and_eq_true] at equal
          obtain ⟨_, _, _, startMeans, stopMeans, durationMeans, _, rfl⟩ :=
            (ramp_means_iff _ _ _ _).1 means
          obtain ⟨_, _, _, startMeans', stopMeans', durationMeans', _, rfl⟩ :=
            (ramp_means_iff _ _ _ _).1 means'
          rw [startMeans.of_same startMeans' equal.1.1, stopMeans.of_same stopMeans' equal.1.2,
            durationMeans.of_same durationMeans' equal.2]
          exact alike_of_eq rfl
      | _ => exact absurd equal (by simp [same])
  | poly coefficients duration =>
      cases second with
      | poly coefficients' duration' =>
          rw [same, Bool.and_eq_true] at equal
          obtain ⟨_, _, mean, durationMeans, _, rfl⟩ := (poly_means_iff _ _ _).1 means
          obtain ⟨_, _, mean', durationMeans', _, rfl⟩ := (poly_means_iff _ _ _).1 means'
          rw [values_of_same equal.1 (known_of_means mean) (known_of_means mean'),
            durationMeans.of_same durationMeans' equal.2]
          exact alike_of_eq rfl
      | _ => exact absurd equal (by simp [same])
  | native name function duration parameters =>
      cases second with
      | native name' function' duration' parameters' =>
          rw [same, Bool.and_eq_true, Bool.and_eq_true, Bool.and_eq_true, beq_iff_eq, beq_iff_eq]
            at equal
          obtain ⟨⟨⟨_, rfl⟩, durationSame⟩, parametersSame⟩ := equal
          obtain ⟨_, _, mean, durationMeans, _, rfl⟩ := (native_means_iff _ _ _ _ _).1 means
          obtain ⟨_, _, mean', durationMeans', _, rfl⟩ := (native_means_iff _ _ _ _ _).1 means'
          rw [values_of_same parametersSame (known_of_means mean) (known_of_means mean'),
            durationMeans.of_same durationMeans' durationSame]
          exact alike_of_eq rfl
      | _ => exact absurd equal (by simp [same])
  | negative inner ih =>
      cases second with
      | negative inner' =>
          obtain ⟨_, innerMeans, rfl⟩ := (negative_means_iff _ _).1 means
          obtain ⟨_, innerMeans', rfl⟩ := (negative_means_iff _ _).1 means'
          have alike := ih _ _ _ innerMeans innerMeans' equal
          exact ⟨alike.forth.negate, alike.back.negate⟩
      | _ => exact absurd equal (by simp [same])
  | add left right leftIh rightIh =>
      cases second with
      | add left' right' =>
          rw [same, Bool.and_eq_true] at equal
          obtain ⟨_, _, leftMeans, rightMeans, rfl⟩ := (add_means_iff _ _ _).1 means
          obtain ⟨_, _, leftMeans', rightMeans', rfl⟩ := (add_means_iff _ _ _).1 means'
          have leftAlike := leftIh _ _ _ leftMeans leftMeans' equal.1
          have rightAlike := rightIh _ _ _ rightMeans rightMeans' equal.2
          exact ⟨leftAlike.forth.plus rightAlike.forth, leftAlike.back.plus rightAlike.back⟩
      | _ => exact absurd equal (by simp [same])
  | scale factor inner ih =>
      cases second with
      | scale factor' inner' =>
          rw [same, Bool.and_eq_true] at equal
          obtain ⟨number, _, factorMeans, innerMeans, rfl⟩ := (scale_means_iff _ _ _).1 means
          obtain ⟨_, _, factorMeans', innerMeans', rfl⟩ := (scale_means_iff _ _ _).1 means'
          have alike := ih _ _ _ innerMeans innerMeans' equal.2
          rw [← factorMeans.of_same factorMeans' equal.1]
          exact ⟨alike.forth.scaled (.ok number), alike.back.scaled (.ok number)⟩
      | _ => exact absurd equal (by simp [same])
  | slice inner interval ih =>
      cases second with
      | slice inner' interval' =>
          rw [same, Bool.and_eq_true, Interval.same, Bool.and_eq_true] at equal
          obtain ⟨start, stop, _, startMeans, stopMeans, innerMeans, _, rfl⟩ :=
            (slice_means_iff _ _ _).1 means
          obtain ⟨start', stop', _, startMeans', stopMeans', innerMeans', _, rfl⟩ :=
            (slice_means_iff _ _ _).1 means'
          have alike := ih _ _ _ innerMeans innerMeans' equal.2
          rw [← bound_of_same equal.1.1 startMeans startMeans',
            ← bound_of_same equal.1.2 stopMeans stopMeans', alike.forth.lasts]
          exact ⟨alike.forth.cut _ _, alike.back.cut _ _⟩
      | _ => exact absurd equal (by simp [same])
  | append parts ih =>
      cases second with
      | append parts' =>
          obtain ⟨meanings, mean, rfl⟩ := (append_means_iff _ _).1 means
          obtain ⟨meanings', mean', rfl⟩ := (append_means_iff _ _).1 means'
          have alike := all_alike_of_same ih mean mean' equal
          have bounded := Means.all_bounded mean
          have bounded' := Means.all_bounded mean'
          exact ⟨concatenate_refines (alike.imp fun _ _ both => both.forth) bounded bounded',
            concatenate_refines (alike.flip.imp fun _ _ both => both.back) bounded' bounded⟩
      | _ => exact absurd equal (by simp [same])
  | record name inner side ih =>
      cases second with
      | record name' inner' side' =>
          rw [same, Bool.and_eq_true] at equal
          rw [record_means_iff] at means means'
          exact ih _ _ _ means means' equal.2
      | _ => exact absurd equal (by simp [same])
  | sample inner step interpolation ih =>
      cases second with
      | sample inner' step' interpolation' =>
          rw [same, Bool.and_eq_true, Bool.and_eq_true, beq_iff_eq] at equal
          obtain ⟨⟨rfl, stepSame⟩, innerSame⟩ := equal
          obtain ⟨number, _, stepMeans, innerMeans, rfl⟩ := (sample_means_iff _ _ _ _).1 means
          obtain ⟨_, _, stepMeans', innerMeans', rfl⟩ := (sample_means_iff _ _ _ _).1 means'
          have alike := ih _ _ _ innerMeans innerMeans' innerSame
          rw [← stepMeans.of_same stepMeans' stepSame]
          exact ⟨alike.forth.sampled (.ok number) interpolation,
            alike.back.sampled (.ok number) interpolation⟩
      | _ => exact absurd equal (by simp [same])
  | smooth inner radius kernel ih =>
      cases second with
      | smooth inner' radius' kernel' =>
          rw [same, Bool.and_eq_true, Bool.and_eq_true, beq_iff_eq] at equal
          obtain ⟨⟨rfl, radiusSame⟩, innerSame⟩ := equal
          obtain ⟨number, _, radiusMeans, innerMeans, rfl⟩ := (smooth_means_iff _ _ _ _).1 means
          obtain ⟨_, _, radiusMeans', innerMeans', rfl⟩ := (smooth_means_iff _ _ _ _).1 means'
          have alike := ih _ _ _ innerMeans innerMeans' innerSame
          rw [← radiusMeans.of_same radiusMeans' radiusSame]
          exact ⟨alike.forth.smoothed kernel (.ok number), alike.back.smoothed kernel (.ok number)⟩
      | _ => exact absurd equal (by simp [same])
  | aligned inner alignment fill ih =>
      cases second with
      | aligned inner' alignment' fill' =>
          rw [same, Bool.and_eq_true] at equal
          rw [aligned_means_iff] at means means'
          exact ih _ _ _ means.2 means'.2 equal.2
      | _ => exact absurd equal (by simp [same])

/-- The duration as an expression has the duration as its value. -/
theorem symbolic_duration_means (waveform : Waveform) (meaning : Signal)
    (means : Means bindings waveform meaning) :
    Scalar.Means bindings waveform.symbolicDuration meaning.duration := by
  have known := symbolic_duration_known waveform meaning.duration (fun node nodeMember scalar
    member => (means.proper node nodeMember scalar member).choose_spec.tidied)
    (duration_of_signal means.means)
  have exact := symbolic_duration_exact waveform fun node nodeMember scalar member =>
    (means.proper node nodeMember scalar member).choose_spec.exact
  exact ⟨known.tidied, exact, known.evaluates⟩

end Analog.Waveform
