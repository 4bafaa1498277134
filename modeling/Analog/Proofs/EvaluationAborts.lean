import Analog.Proofs.Evaluation
import Analog.Proofs.RoundedQuotients
import Analog.Proofs.ScalarEquality
import Analog.Proofs.SymbolicDurations
import Analog.Waveform.Builtin

/-!
# How evaluation can abort

Lines and samples divide by the time between two points that differ, and a quotient of scalars
is refused before it is divided. Only a smoothing can abort: the step of its grid is a rounded
quotient, which is zero if the radius is too small, and a weighted mean of binary numbers may
be no finite number. Evaluation never aborts exactly if neither happens anywhere.
-/

set_option autoImplicit false

namespace Analog

namespace Outcome

variable {α β : Type} {allowed : Abort → Prop}

/-- Work that gives a value, says what is wrong with the program, or aborts in an allowed way. -/
structure AbortsOnly (allowed : Abort → Prop) (outcome : Outcome α) : Prop where
  allows : ∀ failure cause, outcome = .error failure → failure.abort? = some cause → allowed cause

/-- Work that gives a value or says what is wrong with the program. -/
abbrev NeverAborts (outcome : Outcome α) : Prop := AbortsOnly (fun _ => False) outcome

namespace AbortsOnly

theorem ok (value : α) : AbortsOnly allowed (.ok value : Outcome α) := by
  constructor
  intro failure cause failed
  exact absurd failed (by simp)

theorem plain {failure : Failure} (isPlain : failure.abort? = none) :
    AbortsOnly allowed (.error failure : Outcome α) := by
  constructor
  intro other cause same aborts
  rw [Except.error.injEq] at same
  rw [← same, isPlain] at aborts
  exact absurd aborts (by simp)

theorem aborted {cause : Abort} (isAllowed : allowed cause) :
    AbortsOnly allowed (.error (.abort cause) : Outcome α) := by
  constructor
  intro failure other same aborts
  rw [Except.error.injEq] at same
  rw [← same, Failure.abort?, Option.some.injEq] at aborts
  rwa [← aborts]

/-- Steps that abort only in allowed ways make up work that does. -/
theorem bind {outcome : Outcome α} {next : α → Outcome β} (first : AbortsOnly allowed outcome)
    (rest : ∀ value, outcome = .ok value → AbortsOnly allowed (next value)) :
    AbortsOnly allowed (outcome >>= next) := by
  cases outcome with
  | error failure =>
      constructor
      intro other cause same aborts
      have sameFailure : failure = other := Except.error.inj same
      exact first.allows failure cause rfl (sameFailure ▸ aborts)
  | ok value => exact rest value rfl

theorem mapM {work : α → Outcome β} (items : List α)
    (each : ∀ item ∈ items, AbortsOnly allowed (work item)) :
    AbortsOnly allowed (items.mapM work) := by
  induction items with
  | nil => exact ok []
  | cons item rest ih =>
      rw [List.mapM_cons]
      apply (each item (by simp)).bind
      intro value _
      apply (ih fun other member => each other (by simp [member])).bind
      intro values _
      exact ok (value :: values)

theorem foldlM {work : β → α → Outcome β} (items : List α) (start : β)
    (each : ∀ before, ∀ item ∈ items, AbortsOnly allowed (work before item)) :
    AbortsOnly allowed (items.foldlM work start) := by
  induction items generalizing start with
  | nil => exact ok start
  | cons item rest ih =>
      rw [List.foldlM_cons]
      apply (each start item (by simp)).bind
      intro next _
      exact ih next fun before other member => each before other (by simp [member])

theorem blame {subject : Unit → String} (result : Except Defect α) :
    AbortsOnly allowed (Outcome.blame subject result) := by
  cases result with
  | ok value => exact ok value
  | error defect => exact plain rfl

theorem quotient {left right : Decimal} (nonzero : right ≠ 0) :
    AbortsOnly allowed (left.quotient right) := by
  rcases Decimal.div_of_ne_zero left right nonzero with ⟨value, divides⟩
  rw [(Decimal.quotient_ok_iff _ _ _).2 divides]
  exact ok value

theorem between {time₀ value₀ time₁ value₁ time : Decimal} (apart : time₁ ≠ time₀) :
    AbortsOnly allowed (Breakpoints.between time₀ value₀ time₁ value₁ time) := by
  apply bind
  · exact quotient (sub_ne_zero.2 apart)
  · intro part _
    exact ok (value₀ + part)

end AbortsOnly

end Outcome

open Outcome

namespace Scalar

variable {allowed : Abort → Prop} {bindings : ScalarBindings}

theorem eval_bound_aborts_only {bound : Option Scalar}
    (each : ∀ given ∈ bound, AbortsOnly allowed (given.eval bindings)) :
    AbortsOnly allowed (evalBound bindings bound) := by
  cases bound with
  | none => exact .ok none
  | some given =>
      apply (each given rfl).bind
      intro value _
      exact .ok (some value)

theorem eval_aborts_only (scalar : Scalar) : AbortsOnly allowed (scalar.eval bindings) := by
  induction scalar using Scalar.parts_induction with
  | literal value => exact .ok value
  | named name =>
      unfold eval
      cases bindings.find? name with
      | none => exact .plain rfl
      | some value => exact .ok value
  | assigned name value => exact .ok value
  | negative operand ih =>
      apply ih.bind
      intro value _
      exact .ok (-value)
  | add left right leftIh rightIh =>
      apply leftIh.bind
      intro leftValue _
      apply rightIh.bind
      intro rightValue _
      exact .ok (leftValue + rightValue)
  | mul left right leftIh rightIh =>
      apply leftIh.bind
      intro leftValue _
      apply rightIh.bind
      intro rightValue _
      exact .ok (leftValue * rightValue)
  | div left right leftIh rightIh =>
      apply leftIh.bind
      intro leftValue _
      apply rightIh.bind
      intro rightValue _
      -- A divisor of zero is a failure of the program here.
      cases leftValue.div? rightValue with
      | none => exact .plain rfl
      | some value => exact .ok value
  | min operands ih =>
      unfold eval
      rw [eval_all_eq_mapM]
      apply (AbortsOnly.mapM operands ih).bind
      intro values _
      cases values with
      | nil => exact .plain rfl
      | cons first rest => exact .ok (rest.foldl Min.min first)
  | max operands ih =>
      unfold eval
      rw [eval_all_eq_mapM]
      apply (AbortsOnly.mapM operands ih).bind
      intro values _
      cases values with
      | nil => exact .plain rfl
      | cons first rest => exact .ok (rest.foldl Max.max first)
  | slice extent start stop extentIh startIh stopIh =>
      apply extentIh.bind
      intro extentValue _
      apply (eval_bound_aborts_only startIh).bind
      intro startValue _
      apply (eval_bound_aborts_only stopIh).bind
      intro stopValue _
      exact .blame (sliceLength extentValue startValue stopValue)

theorem eval_all_aborts_only (operands : List Scalar) :
    AbortsOnly allowed (evalAll bindings operands) := by
  rw [eval_all_eq_mapM]
  exact .mapM operands fun operand _ => operand.eval_aborts_only

end Scalar

namespace Smoothing

def NotFinite (cause : Abort) : Prop := ∃ name, cause = .notFinite name

/-- A double whose exponent is not the one kept for infinities and for what is no number. -/
def FiniteNumber (value : Float) : Prop :=
  value.toBits.toNat / Binary.twoTo 52 % Binary.twoTo 11 ≠ 2047

instance decidableFinite (value : Float) : Decidable (FiniteNumber value) :=
  inferInstanceAs (Decidable (_ ≠ _))

theorem of_float_isSome_iff (value : Float) :
    (Decimal.ofFloat? value).isSome ↔ FiniteNumber value := by
  unfold Decimal.ofFloat? Binary.ofBits FiniteNumber
  dsimp only
  split_ifs with special
  · simp [Decimal.ofBinary?, special]
  · simp [Decimal.ofBinary?, special]
  · simp [Decimal.ofBinary?, special]
  · simp [Decimal.ofBinary?, special]

/-- The mean that the sums give, if any point has a weight, is a finite number. -/
def Mean.Finite (mean : Mean) : Prop :=
  (mean.weights == 0) = false → FiniteNumber (mean.weighted / mean.weights)

instance decidableFiniteMean (mean : Mean) : Decidable mean.Finite :=
  inferInstanceAs (Decidable ((mean.weights == 0) = false → FiniteNumber _))

/-- The least radius whose grid has a step that is not rounded away. -/
def leastRadius : Decimal := .ofScaled 4 16

theorem step_vanishes_iff {radius : Decimal} (positive : 0 < radius) :
    radius.div? resolution = some 0 ↔ radius < leastRadius := by
  rw [Decimal.div_eq_zero_iff positive.le (by decide), Decimal.lt_iff_to_rat,
    Decimal.lt_iff_to_rat, Decimal.to_rat_mul, Decimal.to_rat_of_int]
  have eight : resolution.toRat = 8 := Decimal.to_rat_of_int 8
  have least : leastRadius.toRat = 4 / 10 ^ 16 := by
    unfold leastRadius
    rw [Decimal.to_rat_of_scaled]
    norm_num
  rw [eight, least, lt_div_iff₀ (by positivity)]
  unfold Decimal.quotientPlaces
  push_cast
  constructor
  · intro small
    linarith
  · intro small
    linarith

theorem uniform_weight (distance : Float) :
    Kernel.uniform.weight distance = 0 ∨ Kernel.uniform.weight distance = 0.5 := by
  unfold Kernel.weight
  dsimp only
  split_ifs
  · exact .inl rfl
  · exact .inr rfl

variable {kernel : Kernel} {radius duration time : Decimal} {value : Decimal → Outcome Decimal}

theorem value_at_faint (positive : 0 < radius) (small : radius < leastRadius) :
    valueAt kernel radius duration value time = .error (.abort .decimalDivision) := by
  have vanishes := (step_vanishes_iff positive).2 small
  unfold valueAt meanAt
  rw [(Decimal.quotient_ok_iff _ _ _).2 vanishes]
  rfl

theorem decimal_of_finite {value : Float} (finite : FiniteNumber value) :
    ∃ number, decimalOf value = .ok number := by
  rcases Option.isSome_iff_exists.1 ((of_float_isSome_iff value).2 finite) with ⟨number, found⟩
  unfold decimalOf
  rw [found]
  exact ⟨number, rfl⟩

theorem decimal_of_not_finite {value : Float} (infinite : ¬ FiniteNumber value) :
    ∃ name, decimalOf value = .error (.abort (.notFinite name)) := by
  rw [← of_float_isSome_iff, Option.not_isSome_iff_eq_none] at infinite
  unfold decimalOf
  rw [infinite]
  exact ⟨_, rfl⟩

theorem value_at_not_finite {mean : Mean}
    (weighs : meanAt kernel radius duration value time = .ok mean) (infinite : ¬ mean.Finite) :
    ∃ name, valueAt kernel radius duration value time = .error (.abort (.notFinite name)) := by
  unfold Mean.Finite at infinite
  push Not at infinite
  rcases decimal_of_not_finite infinite.2 with ⟨name, aborts⟩
  refine ⟨name, ?_⟩
  unfold valueAt
  rw [weighs, Outcome.ok_bind, if_neg (by simp [infinite.1]), aborts]

-- The mean of values beyond the greatest double is infinite.
example : ¬ (⟨(Decimal.ofInt (10 ^ 309)).toFloat, 1⟩ : Mean).Finite := by decide +kernel

variable {allowed : Abort → Prop}

/-- With a radius that is large enough, the grid divides by no zero. -/
theorem mean_at_aborts_only (positive : 0 < radius) (large : leastRadius ≤ radius)
    (each : ∀ moment, AbortsOnly allowed (value moment)) :
    AbortsOnly allowed (meanAt kernel radius duration value time) := by
  apply AbortsOnly.bind
  · exact .quotient (by decide)
  intro step divides
  have nonzero : step ≠ 0 := by
    rintro rfl
    rw [Decimal.quotient_ok_iff, step_vanishes_iff positive] at divides
    exact absurd divides (not_lt.2 large)
  apply AbortsOnly.bind
  · exact .quotient nonzero
  intro first _
  apply AbortsOnly.bind
  · exact .quotient nonzero
  intro last _
  apply AbortsOnly.foldlM
  intro sums index _
  dsimp only
  split_ifs
  · exact .ok sums
  · apply AbortsOnly.bind (each _)
    intro height _
    exact .ok _

theorem value_at_aborts_only (positive : 0 < radius) (large : leastRadius ≤ radius)
    (finite : (∀ name, allowed (.notFinite name)) ∨
      ∀ mean, meanAt kernel radius duration value time = .ok mean → mean.Finite)
    (each : ∀ moment, AbortsOnly allowed (value moment)) :
    AbortsOnly allowed (valueAt kernel radius duration value time) := by
  apply AbortsOnly.bind
  · exact mean_at_aborts_only positive large each
  intro mean weighs
  split_ifs with weightless
  · exact each time
  · by_cases isFinite : FiniteNumber (mean.weighted / mean.weights)
    · rcases decimal_of_finite isFinite with ⟨number, found⟩
      rw [found]
      exact .ok number
    · rcases decimal_of_not_finite isFinite with ⟨name, aborts⟩
      rw [aborts]
      rcases finite with anyName | means
      · exact .aborted (anyName name)
      · exact absurd (means mean weighs (by simpa using weightless)) isFinite

end Smoothing

namespace Signal

variable {allowed : Abort → Prop}

theorem within_aborts_only_inside {duration : Decimal} {inside : Decimal → Outcome Decimal}
    (each : ∀ time, 0 ≤ time → time ≤ duration → AbortsOnly allowed (inside time))
    (time : Decimal) : AbortsOnly allowed ((within duration inside).value time) := by
  unfold within
  dsimp only
  split_ifs with beyond
  · exact .ok 0
  · rw [outside_iff, not_or, not_lt, not_lt] at beyond
    exact each time beyond.1 beyond.2

theorem within_aborts_only {duration : Decimal} {inside : Decimal → Outcome Decimal}
    (each : ∀ time, AbortsOnly allowed (inside time)) (time : Decimal) :
    AbortsOnly allowed ((within duration inside).value time) :=
  within_aborts_only_inside (fun moment _ _ => each moment) time

theorem sequence_value_aborts_only {parts : List Signal}
    (each : ∀ part ∈ parts, ∀ time, AbortsOnly allowed (part.value time)) (time : Decimal) :
    AbortsOnly allowed (sequenceValue parts time) := by
  induction parts generalizing time with
  | nil => exact .ok 0
  | cons part rest ih =>
      have others := ih fun other member => each other (by simp [member])
      unfold sequenceValue
      split_ifs
      · exact others time
      · exact each part (by simp) time
      · exact each part (by simp) time
      · exact others (time - part.duration)

theorem line_aborts_only {start stop : Outcome Decimal} {duration : Decimal}
    (starts : AbortsOnly allowed start) (stops : AbortsOnly allowed stop) (time : Decimal) :
    AbortsOnly allowed ((line start stop duration).value time) := by
  apply within_aborts_only
  intro moment
  apply starts.bind
  intro first _
  apply stops.bind
  intro last _
  split_ifs with empty
  · exact .ok first
  · apply AbortsOnly.between
    rwa [Ne, ← Decimal.is_zero_iff]

theorem sample_points_aborts_only {subject : Unit → String} {inner : Signal}
    {step : Outcome Decimal} {interpolation : Interpolation} (steps : AbortsOnly allowed step)
    (each : ∀ time, AbortsOnly allowed (inner.value time)) :
    AbortsOnly allowed (samplePoints subject inner step interpolation) := by
  apply steps.bind
  intro stepValue _
  split_ifs
  · apply AbortsOnly.bind
    · exact .mapM _ fun time _ => each time
    · intro values _
      cases interpolation with
      | linear => exact .ok _
      | constant => exact .ok _
  · exact .plain rfl

/-- Between two points of a sample only the time between them is divided by. -/
theorem sampled_value_aborts_only (interpolation : Interpolation) (points : SamplePoints)
    (time : Decimal) : AbortsOnly allowed (sampledValue interpolation points time) := by
  unfold sampledValue
  dsimp only
  split
  · exact .ok _
  · split
    · split_ifs with meet
      · exact .ok _
      · exact .between meet
    · exact .ok _

end Signal

namespace Waveform

open Signal Smoothing

variable [Natives] {bindings : ScalarBindings} {allowed : Abort → Prop}

/-- A smoothing whose radius is positive, if at all, enough for the step of its grid. -/
def RadiusResolved (bindings : ScalarBindings) : Waveform → Prop
  | .smooth _ radius _ =>
    ∀ value, radius.eval bindings = .ok value → 0 < value → leastRadius ≤ value
  | _ => True

/-- A smoothing whose weighted means are finite numbers at every time at which one is taken. -/
def MeansFinite (bindings : ScalarBindings) : Waveform → Prop
  | .smooth inner radius kernel =>
    ∀ meaning value, inner.signal bindings = .ok meaning → radius.eval bindings = .ok value →
      0 < value → ∀ time, 0 ≤ time → time ≤ meaning.duration →
        ∀ mean, meanAt kernel value meaning.duration meaning.value time = .ok mean → mean.Finite
  | _ => True

/-- Where the radius of every smoothing is large enough, no division is by zero at any time; what
is left are means that are no finite numbers. The induction is on the waveform; the parts of an
append share one statement. -/
theorem value_aborts_only
    (total : ∀ function time parameters, ∃ value, Natives.run function time parameters = .ok value)
    (waveform : Waveform) (safe : ∀ node ∈ waveform.nodes, node.RadiusResolved bindings ∧
      ((∀ name, allowed (.notFinite name)) ∨ node.MeansFinite bindings))
    (meaning : Signal) (means : waveform.signal bindings = .ok meaning) (time : Decimal) :
    AbortsOnly allowed (meaning.value time) := by
  induction waveform using Waveform.parts_induction generalizing meaning time with
  | constant value duration =>
      rcases (Outcome.return_ok_iff _ _ _).1 means with ⟨length, _, rfl⟩
      exact within_aborts_only (fun _ => value.eval_aborts_only) time
  | ramp start stop duration =>
      rcases (Outcome.return_ok_iff _ _ _).1 means with ⟨length, _, rfl⟩
      exact line_aborts_only start.eval_aborts_only stop.eval_aborts_only time
  | poly coefficients duration =>
      rcases (Outcome.return_ok_iff _ _ _).1 means with ⟨length, _, rfl⟩
      apply within_aborts_only
      intro moment
      apply (Scalar.eval_all_aborts_only coefficients).bind
      intro values _
      exact .ok _
  | native name function duration parameters =>
      rcases (Outcome.return_ok_iff _ _ _).1 means with ⟨length, _, rfl⟩
      apply within_aborts_only
      intro moment
      apply (Scalar.eval_all_aborts_only parameters).bind
      intro values _
      rcases total function moment values with ⟨value, runs⟩
      rw [runs]
      exact .ok value
  | negative inner ih =>
      have within := (each_node_iff _ _).1 safe
      rcases (Outcome.return_ok_iff _ _ _).1 means with ⟨innerMeaning, innerMeans, rfl⟩
      apply within_aborts_only
      intro moment
      apply (ih (within.2 inner (by simp [children])) innerMeaning innerMeans moment).bind
      intro value _
      exact .ok (-value)
  | add left right leftIh rightIh =>
      have within := (each_node_iff _ _).1 safe
      rcases (Outcome.bind_ok_iff _ _ _).1 means with ⟨leftMeaning, leftMeans, rest⟩
      rcases (Outcome.return_ok_iff _ _ _).1 rest with ⟨rightMeaning, rightMeans, rfl⟩
      apply within_aborts_only
      intro moment
      apply (rightIh (within.2 right (by simp [children])) rightMeaning rightMeans moment).bind
      intro rightValue _
      apply (leftIh (within.2 left (by simp [children])) leftMeaning leftMeans moment).bind
      intro leftValue _
      exact .ok (leftValue + rightValue)
  | scale factor inner ih =>
      have within := (each_node_iff _ _).1 safe
      rcases (Outcome.return_ok_iff _ _ _).1 means with ⟨innerMeaning, innerMeans, rfl⟩
      apply within_aborts_only
      intro moment
      apply factor.eval_aborts_only.bind
      intro factorValue _
      apply (ih (within.2 inner (by simp [children])) innerMeaning innerMeans moment).bind
      intro value _
      exact .ok (factorValue * value)
  | slice inner interval ih =>
      have within := (each_node_iff _ _).1 safe
      rcases (Outcome.bind_ok_iff _ _ _).1 means with ⟨innerMeaning, innerMeans, rest⟩
      rcases (Outcome.return_ok_iff _ _ _).1 rest with ⟨⟨lower, upper⟩, _, rfl⟩
      apply within_aborts_only
      intro moment
      exact ih (within.2 inner (by simp [children])) innerMeaning innerMeans (moment + lower)
  | append parts ih =>
      have within := (each_node_iff _ _).1 safe
      rcases (Outcome.return_ok_iff _ _ _).1 means with ⟨meanings, allMean, rfl⟩
      apply within_aborts_only
      apply sequence_value_aborts_only
      intro part member moment
      rcases Outcome.source_of_mem ((signals_ok_iff _ _ _).1 allMean) member with
        ⟨source, sourceMember, sourceMeans⟩
      exact ih source sourceMember (within.2 source sourceMember) part sourceMeans moment
  | record name inner side ih =>
      have within := (each_node_iff _ _).1 safe
      exact ih (within.2 inner (by simp [children])) meaning means time
  | sample inner step interpolation ih =>
      have within := (each_node_iff _ _).1 safe
      rcases (Outcome.return_ok_iff _ _ _).1 means with ⟨innerMeaning, innerMeans, rfl⟩
      apply within_aborts_only
      intro moment
      apply AbortsOnly.bind
      · apply sample_points_aborts_only step.eval_aborts_only
        exact ih (within.2 inner (by simp [children])) innerMeaning innerMeans
      · intro points _
        exact sampled_value_aborts_only interpolation points moment
  | smooth inner radius kernel ih =>
      have within := (each_node_iff _ _).1 safe
      rcases (Outcome.return_ok_iff _ _ _).1 means with ⟨innerMeaning, innerMeans, rfl⟩
      have each := ih (within.2 inner (by simp [children])) innerMeaning innerMeans
      apply within_aborts_only_inside
      intro moment nonneg reached
      apply radius.eval_aborts_only.bind
      intro radiusValue evaluates
      split_ifs with positive
      · rw [Decimal.is_positive_iff] at positive
        apply value_at_aborts_only positive (within.1.1 radiusValue evaluates positive) _ each
        apply within.1.2.imp_right
        intro allFinite mean weighs
        exact allFinite innerMeaning radiusValue innerMeans evaluates positive moment nonneg
          reached mean weighs
      · exact each moment
  | aligned inner alignment fill ih =>
      have within := (each_node_iff _ _).1 safe
      exact ih (within.2 inner (by simp [children])) meaning means time

/-- A smoothing with a positive radius that is too small aborts everywhere. -/
theorem faint_smoothing_aborts {inner : Waveform} {radius : Scalar} {kernel : Kernel}
    {meaning : Signal} (means : (Waveform.smooth inner radius kernel).signal bindings = .ok meaning)
    {value time : Decimal} (evaluates : radius.eval bindings = .ok value) (positive : 0 < value)
    (small : value < leastRadius) (nonneg : 0 ≤ time) (reached : time ≤ meaning.duration) :
    meaning.value time = .error (.abort .decimalDivision) := by
  rcases (Outcome.return_ok_iff _ _ _).1 means with ⟨innerMeaning, _, rfl⟩
  unfold smoothed at reached ⊢
  rw [duration_within] at reached
  rw [within_inside nonneg reached, evaluates, Outcome.ok_bind,
    if_pos ((Decimal.is_positive_iff _).2 positive), value_at_faint positive small]

theorem infinite_mean_aborts {inner : Waveform} {radius : Scalar} {kernel : Kernel}
    {outer meaning : Signal}
    (outerMeans : (Waveform.smooth inner radius kernel).signal bindings = .ok outer)
    (means : inner.signal bindings = .ok meaning) {value time : Decimal}
    (evaluates : radius.eval bindings = .ok value) (positive : 0 < value) (nonneg : 0 ≤ time)
    (reached : time ≤ meaning.duration) {mean : Mean}
    (weighs : meanAt kernel value meaning.duration meaning.value time = .ok mean)
    (infinite : ¬ mean.Finite) :
    ∃ name, outer.value time = .error (.abort (.notFinite name)) := by
  rcases (Outcome.return_ok_iff _ _ _).1 outerMeans with ⟨innerMeaning, innerMeans, rfl⟩
  rw [means, Except.ok.injEq] at innerMeans
  subst innerMeans
  rcases value_at_not_finite weighs infinite with ⟨name, aborts⟩
  refine ⟨name, ?_⟩
  unfold smoothed
  rw [within_inside nonneg reached, evaluates, Outcome.ok_bind,
    if_pos ((Decimal.is_positive_iff _).2 positive), aborts]

end Waveform

namespace Evaluator

open Waveform Smoothing

/-- What is asked of each node decides how its evaluator aborts. -/
theorem aborts_only_of_safe [Natives] {bindings : ScalarBindings} {waveform : Waveform}
    {evaluator : Evaluator} {allowed : Abort → Prop} (made : of bindings waveform = .ok evaluator)
    (total : ∀ function time parameters, ∃ value, Natives.run function time parameters = .ok value)
    (safe : ∀ node ∈ waveform.nodes, node.RadiusResolved bindings ∧
      ((∀ name, allowed (.notFinite name)) ∨ node.MeansFinite bindings)) :
    ∀ node ∈ waveform.nodes, ∃ inner, of bindings node = .ok inner ∧
      ∀ time, AbortsOnly allowed (inner.valueAt time) := by
  intro node member
  rcases of_ok_iff.1 ⟨evaluator, made⟩ with ⟨length, lasts⟩
  rcases duration_of_node waveform length lasts node member with ⟨extent, nodeLasts⟩
  rcases of_ok_iff.2 ⟨extent, nodeLasts⟩ with ⟨inner, innerMade⟩
  rcases signal_of_duration nodeLasts with ⟨meaning, means, _⟩
  refine ⟨inner, innerMade, ?_⟩
  intro time
  rw [value_at_eq innerMade, Waveform.valueAt, means, Outcome.ok_bind]
  exact value_aborts_only total node (each_inside_node waveform safe node member) meaning means
    time

/-- An evaluator that does not divide by zero at time zero has a radius for its grid. -/
theorem radius_resolved_of_aborts_only [Natives] {bindings : ScalarBindings} {node : Waveform}
    {inner : Evaluator} {allowed : Abort → Prop} (made : of bindings node = .ok inner)
    (refused : ¬ allowed .decimalDivision)
    (aborts : ∀ time, AbortsOnly allowed (inner.valueAt time)) : node.RadiusResolved bindings := by
  rcases of_ok_iff.1 ⟨inner, made⟩ with ⟨length, lasts⟩
  rcases signal_of_duration lasts with ⟨meaning, means, _⟩
  cases node with
  | smooth smoothed radius kernel =>
      intro value evaluates positive
      by_contra small
      have nonneg := (signal_bounded bindings _ meaning means).nonneg
      have divides := faint_smoothing_aborts means evaluates positive (not_le.1 small) le_rfl
        nonneg
      have same : inner.valueAt 0 = .error (.abort .decimalDivision) := by
        rw [value_at_eq made, Waveform.valueAt, means, Outcome.ok_bind, divides]
      exact refused ((aborts 0).allows _ .decimalDivision same rfl)
  | _ => exact trivial

/-- An evaluator that never aborts takes only means that are finite numbers. -/
theorem means_finite_of_never_aborts [Natives] {bindings : ScalarBindings} {node : Waveform}
    {inner : Evaluator} (made : of bindings node = .ok inner)
    (never : ∀ time, NeverAborts (inner.valueAt time)) : node.MeansFinite bindings := by
  rcases of_ok_iff.1 ⟨inner, made⟩ with ⟨length, lasts⟩
  rcases signal_of_duration lasts with ⟨outer, outerMeans, _⟩
  cases node with
  | smooth smoothed radius kernel =>
      intro meaning value means evaluates positive time nonneg reached mean weighs
      by_contra infinite
      rcases infinite_mean_aborts outerMeans means evaluates positive nonneg reached weighs
        infinite with ⟨name, aborts⟩
      have same : inner.valueAt time = .error (.abort (.notFinite name)) := by
        rw [value_at_eq made, Waveform.valueAt, outerMeans, Outcome.ok_bind, aborts]
      exact (never time).allows _ (.notFinite name) same rfl
  | _ => exact trivial

/-- Evaluation at any time, of a waveform and of all that it encloses, divides by no zero exactly
if every smoothing with a positive radius has one that is large enough for its grid. It never
aborts at all exactly if, besides, every weighted mean that is taken is a finite number. -/
theorem never_divides_by_zero_iff [Natives] (bindings : ScalarBindings) (waveform : Waveform)
    (evaluator : Evaluator) (made : of bindings waveform = .ok evaluator)
    (total : ∀ function time parameters, ∃ value,
      Natives.run function time parameters = .ok value) :
    ((∀ node ∈ waveform.nodes, ∃ inner, of bindings node = .ok inner ∧
        ∀ time, AbortsOnly NotFinite (inner.valueAt time)) ↔
      ∀ node ∈ waveform.nodes, node.RadiusResolved bindings) ∧
    ((∀ node ∈ waveform.nodes, ∃ inner, of bindings node = .ok inner ∧
        ∀ time, NeverAborts (inner.valueAt time)) ↔
      ∀ node ∈ waveform.nodes, node.RadiusResolved bindings ∧ node.MeansFinite bindings) := by
  constructor
  · constructor
    · intro each node member
      rcases each node member with ⟨inner, innerMade, aborts⟩
      refine radius_resolved_of_aborts_only innerMade ?_ aborts
      rintro ⟨name, impossible⟩
      exact absurd impossible (by simp)
    · intro resolved
      apply aborts_only_of_safe made total
      intro node member
      exact ⟨resolved node member, .inl fun name => ⟨name, rfl⟩⟩
  · constructor
    · intro each node member
      rcases each node member with ⟨inner, innerMade, never⟩
      exact ⟨radius_resolved_of_aborts_only innerMade not_false never,
        means_finite_of_never_aborts innerMade never⟩
    · intro safe
      apply aborts_only_of_safe made total
      intro node member
      exact ⟨(safe node member).1, .inr (safe node member).2⟩

/-- A sample, a line without duration and a native function, together as long as one step of the
grid of the least radius. -/
def shortParts : Waveform :=
  .append [
    .sample (.ramp (.literal 0) (.literal 1) (.literal (.ofScaled 5 17)))
      (.literal (.ofScaled 3 17)) .linear,
    .ramp (.literal 2) (.literal 3) (.literal 0),
    .native "double" "double" (.literal (.ofScaled 5 17)) []]

def smoothedParts : Waveform := .smooth shortParts (.literal leastRadius) .uniform

theorem short_parts_ends :
    let _ : Natives := ⟨fun _ time _ => .ok (time + time)⟩
    ∃ meaning, shortParts.signal .empty = .ok meaning ∧ meaning.duration = .ofScaled 1 16 ∧
      meaning.value 0 = .ok 0 ∧ meaning.value (.ofScaled 1 16) = .ok (.ofScaled 1 16) := by
  intro given
  exact ⟨_, rfl, by decide, by decide, by decide⟩

/-- The grid has two points wherever the mean is taken, the start and the end. -/
theorem short_parts_means_finite :
    let _ : Natives := ⟨fun _ time _ => .ok (time + time)⟩
    smoothedParts.MeansFinite .empty := by
  intro given meaning value means evaluates _ time nonneg reached mean weighs
  have sameValue : leastRadius = value := Except.ok.inj evaluates
  rcases short_parts_ends with ⟨ends, endsMean, lasts, atStart, atEnd⟩
  have same : ends = meaning := Except.ok.inj (endsMean.symm.trans means)
  subst sameValue same
  have reach : Decimal.ofScaled 1 16 ≤ leastRadius * .ofInt (Kernel.support .uniform) := by
    decide
  rw [lasts] at reached weighs
  have first : max 0 (time - leastRadius * .ofInt (Kernel.support .uniform)) = 0 :=
    max_eq_left (sub_nonpos.2 (reached.trans reach))
  have last : min (.ofScaled 1 16) (time + leastRadius * .ofInt (Kernel.support .uniform)) =
      .ofScaled 1 16 :=
    min_eq_left (reach.trans (le_add_of_nonneg_left nonneg))
  have step : leastRadius.quotient resolution = .ok (.ofScaled 1 16) := by decide
  have none : Decimal.quotient 0 (.ofScaled 1 16) = .ok 0 := by decide
  have one : Decimal.quotient (.ofScaled 1 16) (.ofScaled 1 16) = .ok 1 := by decide
  have grid : integers (Decimal.floor 0) (Decimal.ceil 1) = [0, 1] := by decide
  have start : min (.ofScaled 1 16) (Decimal.ofInt 0 * .ofScaled 1 16) = 0 := by decide
  have stop : min (.ofScaled 1 16) (Decimal.ofInt 1 * .ofScaled 1 16) = .ofScaled 1 16 := by decide
  unfold meanAt at weighs
  rw [step, Outcome.ok_bind] at weighs
  dsimp only at weighs
  rw [first, last, none, one, Outcome.ok_bind, Outcome.ok_bind, grid] at weighs
  simp only [List.foldlM_cons, List.foldlM_nil, start, stop, atStart, atEnd] at weighs
  rcases uniform_weight ((time - 0).toFloat / leastRadius.toFloat) with before | before <;>
    rcases uniform_weight ((time - .ofScaled 1 16).toFloat / leastRadius.toFloat) with after | after
  all_goals rw [before, after] at weighs
  all_goals
    have sums := Except.ok.inj weighs
    rw [← sums]
    decide

theorem never_divides_by_zero_smoothed_parts :
    let _ : Natives := ⟨fun _ time _ => .ok (time + time)⟩
    ∃ evaluator, of .empty smoothedParts = .ok evaluator ∧
      ∀ time, NeverAborts (evaluator.valueAt time) := by
  intro given
  have made : ∃ evaluator, of .empty smoothedParts = .ok evaluator := by
    decide
  rcases made with ⟨evaluator, made⟩
  have safe : ∀ node ∈ smoothedParts.nodes,
      node.RadiusResolved .empty ∧ node.MeansFinite .empty := by
    rw [each_node_iff]
    constructor
    · refine ⟨?_, short_parts_means_finite⟩
      intro value evaluates _
      have same : leastRadius = value := Except.ok.inj evaluates
      exact same.le
    · intro child member node nodeMember
      rw [List.mem_singleton.1 member] at nodeMember
      simp only [shortParts, nodes, nodesAll, List.mem_cons, List.mem_append, List.not_mem_nil,
        or_false] at nodeMember
      rcases nodeMember with rfl | (rfl | rfl) | rfl | rfl <;> exact ⟨trivial, trivial⟩
  have each := (never_divides_by_zero_iff .empty smoothedParts evaluator made
    (fun _ time _ => ⟨time + time, rfl⟩)).2.2 safe
  rcases each smoothedParts (by simp [nodes_eq]) with ⟨other, otherMade, never⟩
  rw [made, Except.ok.injEq] at otherMade
  exact ⟨evaluator, made, otherMade ▸ never⟩

/-- A constant, smoothed with a radius whose eighth is rounded away. -/
def faintSmoothing : Waveform :=
  .smooth (.constant (.literal 1) (.literal 1)) (.literal (.ofScaled 1 17)) .uniform

theorem faint_smoothing_divides_by_zero :
    let _ : Natives := ⟨fun _ time _ => .ok (time + time)⟩
    ∃ evaluator, of .empty faintSmoothing = .ok evaluator ∧
      evaluator.valueAt (.ofScaled 5 1) = .error (.abort .decimalDivision) := by
  intro given
  have made : ∃ evaluator, of .empty faintSmoothing = .ok evaluator := by
    decide
  rcases made with ⟨evaluator, made⟩
  refine ⟨evaluator, made, ?_⟩
  rw [value_at_eq made]
  rfl

end Evaluator

end Analog
