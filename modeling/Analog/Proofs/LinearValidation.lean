import Analog.Proofs.Durations
import Analog.Proofs.Outlines
import Analog.Waveform.Builtin

/-!
# Validation and lowering

The validator outlines a waveform, then looks at all joints that no slice hides. Lowering
looks at every joint while it builds the series. The two agree as long as the expressions
at the ends of the outline have the values of the series there, except that lowering also
asks for the waveform inside every slice to be continuous, and for the samples.
-/

set_option autoImplicit false

namespace Analog.Validation

open LinearSeries

variable {bindings : ScalarBindings}

/-- The expressions at both ends have the values of a series there. -/
structure Fits (bindings : ScalarBindings) (ends : Ends) (series : LinearSeries) : Prop where
  start : ∃ expression ∈ ends.start, expression.eval bindings = .ok (series.eval 0)
  stop : ∃ expression ∈ ends.stop, expression.eval bindings = .ok (series.eval series.duration)

instance (ends : Ends) (series : LinearSeries) : Decidable (Fits bindings ends series) :=
  decidable_of_iff
    ((∃ expression ∈ ends.start, expression.eval bindings = .ok (series.eval 0)) ∧
      ∃ expression ∈ ends.stop, expression.eval bindings = .ok (series.eval series.duration))
    ⟨fun ⟨start, stop⟩ => ⟨start, stop⟩, fun fits => ⟨fits.start, fits.stop⟩⟩

/-- Ends of the duration of a series, both of them there, that fit unless they are empty. -/
structure Describes (bindings : ScalarBindings) (ends : Ends) (series : LinearSeries) : Prop where
  spans : Spans series ends.duration (series.eval 0) (series.eval series.duration)
  present : ∃ start stop, ends.start = some start ∧ ends.stop = some stop
  fits : ends.duration ≠ 0 → Fits bindings ends series

theorem describes_of_spans {series : LinearSeries} {start stop : Scalar}
    {duration first last : Decimal} (spans : Spans series duration first last)
    (startOk : duration ≠ 0 → start.eval bindings = .ok first)
    (stopOk : duration ≠ 0 → stop.eval bindings = .ok last) :
    Describes bindings ⟨some start, some stop, duration⟩ series := by
  refine ⟨spans.own, ⟨start, stop, rfl, rfl⟩, fun lasting => ⟨⟨start, rfl, ?_⟩, stop, rfl, ?_⟩⟩
  · rw [spans.eval_start]
    exact startOk lasting
  · rw [spans.lasts, spans.eval_stop]
    exact stopOk lasting

theorem add_powers_eval {time value power : Scalar} {moment sum factor : Decimal}
    {coefficients : List Scalar} {values : List Decimal}
    (timeOk : time.eval bindings = .ok moment) (valueOk : value.eval bindings = .ok sum)
    (powerOk : power.eval bindings = .ok factor)
    (each : List.Forall₂ (fun coefficient number => coefficient.eval bindings = .ok number)
      coefficients values) :
    (addPowers time value power coefficients).eval bindings =
      .ok (sum + factor * moment * Signal.polynomialValue values moment) := by
  induction each generalizing value power sum factor with
  | nil => simp [addPowers, valueOk, Signal.polynomialValue]
  | @cons coefficient number coefficients values coefficientOk _ ih =>
      have nextOk : (Scalar.mul power time).eval bindings = .ok (factor * moment) :=
        (Scalar.eval_mul_ok_iff _ _ _).2 ⟨factor, moment, powerOk, timeOk, rfl⟩
      have sumOk : (Scalar.add value (.mul coefficient (.mul power time))).eval bindings =
          .ok (sum + number * (factor * moment)) :=
        (Scalar.eval_add_ok_iff _ _ _).2 ⟨sum, _, valueOk,
          (Scalar.eval_mul_ok_iff _ _ _).2 ⟨number, _, coefficientOk, nextOk, rfl⟩, rfl⟩
      rw [addPowers, ih sumOk nextOk]
      congr 1
      change _ = sum + factor * moment * (Signal.polynomialValue values moment * moment + number)
      ring

/-- The expression for a polynomial has the value of the polynomial. -/
theorem polynomial_eval {time : Scalar} {moment : Decimal} {coefficients : List Scalar}
    {values : List Decimal} (timeOk : time.eval bindings = .ok moment)
    (valuesOk : Scalar.evalAll bindings coefficients = .ok values) :
    (polynomial time coefficients).eval bindings = .ok (Signal.polynomialValue values moment) := by
  rw [Scalar.eval_all_ok_iff] at valuesOk
  cases valuesOk with
  | nil => rfl
  | @cons value number rest others valueOk each =>
      have oneOk : Scalar.one.eval bindings = .ok 1 := rfl
      rw [polynomial, add_powers_eval timeOk valueOk oneOk each]
      congr 1
      change number + 1 * moment * Signal.polynomialValue others moment =
        Signal.polynomialValue others moment * moment + number
      ring

theorem first_coefficient_eval {coefficients : List Scalar} {values : List Decimal}
    (valuesOk : Scalar.evalAll bindings coefficients = .ok values) :
    (coefficients.headD Scalar.zero).eval bindings = .ok (Signal.polynomialValue values 0) := by
  rw [Scalar.eval_all_ok_iff] at valuesOk
  cases valuesOk with
  | nil => rfl
  | @cons value number rest others valueOk each =>
      rw [List.headD_cons, valueOk]
      congr 1
      change number = Signal.polynomialValue others 0 * 0 + number
      ring

theorem follow_empty_describes {before part : Ends} {joined : LinearSeries}
    (described : Describes bindings before joined)
    (present : ∃ start stop, part.start = some start ∧ part.stop = some stop)
    (empty : part.duration = 0) : Describes bindings (followEnds before part) joined := by
  unfold followEnds
  simp only [Decimal.is_zero_iff, empty, add_zero]
  split_ifs with beforeEmpty
  · exact ⟨described.spans, present, fun lasting => absurd beforeEmpty lasting⟩
  · exact described

theorem follow_first_describes {before part : Ends} {series : LinearSeries}
    (described : Describes bindings part series) (empty : before.duration = 0) :
    Describes bindings (followEnds before part) series := by
  unfold followEnds
  rw [if_pos (by simpa using empty), empty, zero_add]
  exact described

theorem follow_describes {before part : Ends} {joined series longer : LinearSeries}
    (joinedDescribed : Describes bindings before joined)
    (described : Describes bindings part series) (beforeLasts : before.duration ≠ 0)
    (partLasts : part.duration ≠ 0) (appended : joined.append series = .ok longer) :
    Describes bindings (followEnds before part) longer := by
  obtain ⟨_, rfl⟩ := (append_ok_iff joinedDescribed.spans described.spans longer).1 appended
  have spans := append_spans joinedDescribed.spans described.spans
    (lt_of_le_of_ne joinedDescribed.spans.nonneg beforeLasts.symm)
  obtain ⟨start, startSame, startOk⟩ := (joinedDescribed.fits beforeLasts).start
  obtain ⟨stop, stopSame, stopOk⟩ := (described.fits partLasts).stop
  unfold followEnds
  rw [if_neg (by simpa using beforeLasts), if_neg (by simpa using partLasts), startSame, stopSame]
  exact describes_of_spans spans (fun _ => startOk) fun _ => stopOk

/-- The ends of all parts, joined from left to right, describe the series of all parts, joined from
left to right. -/
theorem joined_describe {parts : List Ends} {serieses : List LinearSeries} {before : Ends}
    {joined whole : LinearSeries} (each : List.Forall₂ (Describes bindings) parts serieses)
    (joinedDescribed : Describes bindings before joined)
    (joins : concatenate (some joined) (serieses.map some) = .ok (some whole)) :
    Describes bindings (parts.foldl followEnds before) whole := by
  induction each generalizing before joined with
  | nil =>
      rw [List.map_nil, concatenate, Except.ok.injEq, Option.some.injEq] at joins
      subst joins
      exact joinedDescribed
  | @cons part series parts serieses described _ ih =>
      rw [List.map_cons, concatenate_cons, described.spans.lasts, joinedDescribed.spans.lasts]
        at joins
      simp only [Decimal.is_zero_iff] at joins
      split_ifs at joins with partEmpty joinedEmpty
      · exact ih (follow_empty_describes joinedDescribed described.present partEmpty) joins
      · exact ih (follow_first_describes described joinedEmpty) joins
      · obtain ⟨longer, appended, joins⟩ := (Outcome.bind_ok_iff _ _ _).1 joins
        exact ih (follow_describes joinedDescribed described joinedEmpty partEmpty appended) joins

/-- What comes before the next joint: nothing as long as all parts were empty, then the last part
that was not. -/
def Precedes (bindings : ScalarBindings) (before : Option Ends) (duration last : Decimal) : Prop :=
  if duration = 0 then before = none
  else ∃ ends expression, before = some ends ∧ ends.stop = some expression ∧
    expression.eval bindings = .ok last

theorem precedes_of_describes {part : Ends} {series : LinearSeries} {duration : Decimal}
    (described : Describes bindings part series) (partLasts : part.duration ≠ 0)
    (lasts : duration ≠ 0) :
    Precedes bindings (some part) duration (series.eval series.duration) := by
  obtain ⟨stop, stopSame, stopOk⟩ := (described.fits partLasts).stop
  unfold Precedes
  rw [if_neg lasts]
  exact ⟨part, stop, rfl, stopSame, stopOk⟩

theorem joints_ok_iff {parts : List Ends} {serieses : List LinearSeries} {before : Option Ends}
    {joined : LinearSeries} {duration first last : Decimal} (offset : Decimal)
    (each : List.Forall₂ (Describes bindings) parts serieses)
    (spans : Spans joined duration first last)
    (precedes : Precedes bindings before duration last) :
    (∃ whole, concatenate (some joined) (serieses.map some) = .ok (some whole)) ↔
      checkJoints bindings none before offset parts = .ok () := by
  induction each generalizing before joined duration first last offset with
  | nil => simp [concatenate, checkJoints]
  | @cons part series parts serieses described _ ih =>
      rw [List.map_cons, concatenate_cons, described.spans.lasts, spans.lasts,
        check_joints_cons_iff]
      simp only [Decimal.is_zero_iff]
      split_ifs with partEmpty joinedEmpty
      · exact ih offset spans precedes
      · -- The first part that is not empty has no joint before it.
        unfold Precedes at precedes
        rw [if_pos joinedEmpty] at precedes
        subst precedes
        rw [ih (offset + part.duration) described.spans
          (precedes_of_describes described partEmpty partEmpty)]
        simp
      · unfold Precedes at precedes
        rw [if_neg joinedEmpty] at precedes
        obtain ⟨ends, stop, rfl, stopSame, stopOk⟩ := precedes
        obtain ⟨start, startSame, startOk⟩ := (described.fits partEmpty).start
        rw [Option.mem_def] at startSame
        have joint := check_joint_ok_iff offset stopOk startOk
        have positive := lt_of_le_of_ne spans.nonneg (Ne.symm joinedEmpty)
        have longerLasts : duration + part.duration ≠ 0 :=
          (add_pos_of_pos_of_nonneg positive described.spans.nonneg).ne'
        have next := ih (offset + part.duration)
          (append_spans spans described.spans positive)
          (precedes_of_describes described partEmpty longerLasts)
        simp only [Option.mem_some_iff, forall_eq', visible, Option.all_none, forall_const, stopSame,
          startSame, joint, ← next, Outcome.bind_ok_iff, append_ok_iff spans described.spans]
        constructor
        · rintro ⟨whole, _, ⟨continuous, rfl⟩, joins⟩
          exact ⟨continuous, whole, joins⟩
        · rintro ⟨continuous, whole, joins⟩
          exact ⟨whole, _, ⟨continuous, rfl⟩, joins⟩

theorem joints_of_first_iff {first : LinearSeries} {part : Ends} {parts : List Ends}
    {serieses : List LinearSeries} (offset : Decimal) (described : Describes bindings part first)
    (each : List.Forall₂ (Describes bindings) parts serieses) :
    (∃ whole, concatenate (some first) (serieses.map some) = .ok (some whole)) ↔
      checkJoints bindings none none offset (part :: parts) = .ok () := by
  rw [check_joints_cons_iff]
  split_ifs with empty
  · apply joints_ok_iff offset each described.spans
    unfold Precedes
    rw [if_pos empty]
  · rw [joints_ok_iff (offset + part.duration) each described.spans
      (precedes_of_describes described empty empty)]
    simp

section Sums

variable {left right ends : Ends} {leftSeries rightSeries : LinearSeries}

/-- A sum succeeds exactly when the end of the shorter operand is accepted. -/
theorem dropout_ok_iff (offset : Decimal) (leftDescribed : Describes bindings left leftSeries)
    (rightDescribed : Describes bindings right rightSeries)
    (leftFits : Fits bindings left leftSeries) (rightFits : Fits bindings right rightSeries) :
    (∃ sum, leftSeries.plus rightSeries = .ok sum) ↔
      checkDropout bindings none offset left right = .ok () := by
  obtain ⟨leftStop, leftSame, leftOk⟩ := leftFits.stop
  obtain ⟨rightStop, rightSame, rightOk⟩ := rightFits.stop
  rw [Option.mem_def] at leftSame rightSame
  have zeroOk : Scalar.zero.eval bindings = .ok 0 := rfl
  simp only [check_dropout_iff, visible, Option.all_none, forall_const, leftSame, rightSame,
    check_joint_ok_iff _ leftOk zeroOk, check_joint_ok_iff _ rightOk zeroOk,
    plus_ok_iff leftDescribed.spans rightDescribed.spans]
  constructor
  · rintro ⟨_, ended, _⟩
    exact ended
  · exact fun ended => ⟨_, ended, rfl⟩

theorem sum_of_ends_describes {sum : LinearSeries} (leftDescribed : Describes bindings left leftSeries)
    (rightDescribed : Describes bindings right rightSeries)
    (leftFits : Fits bindings left leftSeries) (rightFits : Fits bindings right rightSeries)
    (summed : leftSeries.plus rightSeries = .ok sum) :
    ∃ ends, sumOfEnds left right = .ok ends ∧ Describes bindings ends sum := by
  obtain ⟨leftStart, leftStartSame, leftStartOk⟩ := leftFits.start
  obtain ⟨leftStop, leftStopSame, leftStopOk⟩ := leftFits.stop
  obtain ⟨rightStart, rightStartSame, rightStartOk⟩ := rightFits.start
  obtain ⟨rightStop, rightStopSame, rightStopOk⟩ := rightFits.stop
  obtain ⟨_, rfl⟩ := (plus_ok_iff leftDescribed.spans rightDescribed.spans sum).1 summed
  have spans := plus_spans leftDescribed.spans rightDescribed.spans
  have startOk : (Scalar.add leftStart rightStart).eval bindings =
      .ok (leftSeries.eval 0 + rightSeries.eval 0) :=
    (Scalar.eval_add_ok_iff _ _ _).2 ⟨_, _, leftStartOk, rightStartOk, rfl⟩
  have startAdded : addEnds left.start right.start = .ok (some (.add leftStart rightStart)) :=
    (add_ends_ok_iff _ _ _).2 ⟨_, _, leftStartSame, rightStartSame, rfl⟩
  unfold sumOfEnds
  rw [startAdded, Outcome.ok_bind]
  rcases lt_trichotomy left.duration right.duration with shorter | same | longer
  · rw [if_pos shorter, max_eq_right shorter.le] at spans
    rw [if_pos shorter, rightStopSame]
    exact ⟨_, rfl, describes_of_spans spans (fun _ => startOk) fun _ => rightStopOk⟩
  · rw [same, if_neg (lt_irrefl _), if_neg (lt_irrefl _), max_self] at spans
    rw [same, if_neg (lt_irrefl _), if_neg (lt_irrefl _),
      (add_ends_ok_iff _ _ _).2 ⟨_, _, leftStopSame, rightStopSame, rfl⟩]
    exact ⟨_, rfl, describes_of_spans spans (fun _ => startOk) fun _ =>
      (Scalar.eval_add_ok_iff _ _ _).2 ⟨_, _, leftStopOk, rightStopOk, rfl⟩⟩
  · rw [if_neg longer.not_gt, if_pos longer, max_eq_left longer.le] at spans
    rw [if_neg longer.not_gt, if_pos longer, leftStopSame]
    exact ⟨_, rfl, describes_of_spans spans (fun _ => startOk) fun _ => leftStopOk⟩

end Sums

theorem map_ends_describes {ends : Ends} {series : LinearSeries} {change : Scalar → Scalar}
    {f : Decimal → Decimal}
    (changes : ∀ expression value, expression.eval bindings = .ok value →
      (change expression).eval bindings = .ok (f value))
    (described : Describes bindings ends series) :
    ∃ changed, mapEnds change ends = .ok changed ∧ Describes bindings changed (series.map f) := by
  obtain ⟨start, stop, startSame, stopSame⟩ := described.present
  refine ⟨_, (map_ends_ok_iff _ _ _).2 ⟨start, stop, startSame, stopSame, rfl⟩, ?_⟩
  refine describes_of_spans (map_spans f described.spans) (fun lasts => ?_) fun lasts => ?_
  · obtain ⟨expression, same, evaluates⟩ := (described.fits lasts).start
    rw [startSame, Option.mem_some_iff] at same
    subst same
    exact changes start _ evaluates
  · obtain ⟨expression, same, evaluates⟩ := (described.fits lasts).stop
    rw [stopSame, Option.mem_some_iff] at same
    subst same
    exact changes stop _ evaluates

end Analog.Validation

namespace Analog.Waveform

open Validation LinearSeries

section

variable [Natives] {bindings : ScalarBindings}

/-- The expressions at the ends of the outline of a waveform have the values of its series. -/
def EndsAgree (bindings : ScalarBindings) (waveform : Waveform) : Prop :=
  ∀ outlined series, outline bindings .linear waveform = .ok outlined →
    lowerLinear bindings waveform = .ok series → Fits bindings outlined.ends series

instance (waveform : Waveform) : Decidable (EndsAgree bindings waveform) :=
  match outlines : outline bindings .linear waveform, lowers : lowerLinear bindings waveform with
  | .ok outlined, .ok series => decidable_of_iff (Fits bindings outlined.ends series)
      ⟨fun fits found foundSeries foundOutlines foundLowers => by
        rw [outlines, Except.ok.injEq] at foundOutlines
        rw [lowers, Except.ok.injEq] at foundLowers
        rw [← foundOutlines, ← foundLowers]
        exact fits, fun agree => agree outlined series outlines lowers⟩
  | .error _, _ => isTrue fun found _ foundOutlines _ => by simp [outlines] at foundOutlines
  | _, .error _ => isTrue fun _ found _ foundLowers => by simp [lowers] at foundLowers

/-- The end values of slices and samples are computed in two ways, and those of empty waveforms
are chosen in two ways, which matters inside a sum. Both must agree. -/
def Settled (bindings : ScalarBindings) : Waveform → Prop
  | .slice inner interval => EndsAgree bindings (.slice inner interval)
  | .sample inner step interpolation => EndsAgree bindings (.sample inner step interpolation)
  | .add left right => (left.duration bindings = .ok 0 → EndsAgree bindings left) ∧
      (right.duration bindings = .ok 0 → EndsAgree bindings right)
  | _ => True

instance (node : Waveform) : Decidable (Settled bindings node) :=
  match node with
  | .slice inner interval => inferInstanceAs (Decidable (EndsAgree bindings (.slice inner interval)))
  | .sample inner step interpolation =>
      inferInstanceAs (Decidable (EndsAgree bindings (.sample inner step interpolation)))
  | .add left right => inferInstanceAs (Decidable
      ((left.duration bindings = .ok 0 → EndsAgree bindings left) ∧
        (right.duration bindings = .ok 0 → EndsAgree bindings right)))
  | .constant .. | .ramp .. | .poly .. | .native .. | .negative .. | .scale .. | .append ..
  | .record .. | .smooth .. | .aligned .. => isTrue trivial

/-- What lowering asks for beyond joints that can be seen: no jump inside a slice, though it may
be hidden, and samples that can be taken. -/
def WholeInside (bindings : ScalarBindings) : Waveform → Prop
  | .slice inner _ => validate bindings .linear inner = .ok ()
  | .sample inner step interpolation =>
      ∃ points, samplePoints? bindings (.sample inner step interpolation) = some (.ok points)
  | _ => True

theorem EndsAgree.fits {waveform : Waveform} {outlined : Outline} {series : LinearSeries}
    (agree : EndsAgree bindings waveform) (outlines : Outlines bindings waveform outlined)
    (lowers : Lowers bindings waveform series) : Fits bindings outlined.ends series :=
  agree outlined series outlines ((lower_linear_ok_iff _ _).2 lowers)

theorem operand_fits {waveform : Waveform} {outlined : Outline} {series : LinearSeries}
    (filled : ∀ node ∈ waveform.exposed, node ≠ .append [])
    (agree : waveform.duration bindings = .ok 0 → EndsAgree bindings waveform)
    (outlines : Outlines bindings waveform outlined) (lowers : Lowers bindings waveform series)
    (described : Describes bindings outlined.ends series) :
    Fits bindings outlined.ends series := by
  by_cases empty : outlined.ends.duration = 0
  · obtain ⟨meaning, _, _, means, _, spans⟩ := spanned_of_lowers waveform series filled lowers
    apply (agree _).fits outlines lowers
    rw [duration_of_signal means, ← spans.lasts, described.spans.lasts, empty]
  · exact described.fits empty

/-- A waveform whose outline describes its series and has no jump at all. -/
structure Accepted (bindings : ScalarBindings) (waveform : Waveform) (series : LinearSeries)
    (outlined : Outline) : Prop where
  outlines : Outlines bindings waveform outlined
  describes : Describes bindings outlined.ends series
  continuous : ∀ window offset, continuity bindings window offset outlined = .ok ()
  inside : ∀ node ∈ waveform.exposed, WholeInside bindings node

theorem Accepted.validates {waveform : Waveform} {series : LinearSeries} {outlined : Outline}
    (accepted : Accepted bindings waveform series outlined) :
    validate bindings .linear waveform = .ok () :=
  (validate_ok_iff _).2 ⟨outlined, accepted.outlines, accepted.continuous none 0⟩

theorem value_at_ok {waveform : Waveform} {meaning : Signal} {time : Scalar} {moment : Decimal}
    (means : waveform.signal bindings = .ok meaning) (timeOk : time.eval bindings = .ok moment)
    (valued : ∃ value, meaning.value moment = .ok value) :
    ∃ expression, Validation.valueAt bindings waveform time = .ok expression := by
  unfold Validation.valueAt
  cases symbolicValue? bindings time waveform with
  | some expression => exact ⟨expression, rfl⟩
  | none =>
      obtain ⟨value, valueOk⟩ := valued
      refine ⟨.literal value, ?_⟩
      unfold Waveform.valueAt
      rw [timeOk, Outcome.ok_bind, means, Outcome.ok_bind, valueOk]
      rfl

theorem bound_value_ok {waveform : Waveform} {meaning : Signal} {given bound : Option Scalar}
    {number : Option Decimal} {expression : Scalar} (givenSame : given = some expression)
    (means : waveform.signal bindings = .ok meaning) (total : meaning.Total)
    (boundOk : Scalar.evalBound bindings bound = .ok number) :
    ∃ found, boundValue bindings waveform given bound = .ok (some found) := by
  cases bound with
  | none => exact ⟨expression, by rw [boundValue, givenSame]⟩
  | some time =>
      rw [Scalar.eval_bound_ok_iff] at boundOk
      cases boundOk with
      | @some _ moment timeOk =>
          obtain ⟨found, foundOk⟩ := value_at_ok means timeOk (total moment)
          exact ⟨found, by rw [boundValue, foundOk]; rfl⟩

theorem accepted_leaf {waveform : Waveform} {series : LinearSeries} {ends : Ends}
    (outlines : Outlines bindings waveform (.leaf ends))
    (describes : Describes bindings ends series)
    (inside : ∀ node ∈ waveform.exposed, WholeInside bindings node) :
    Accepted bindings waveform series (.leaf ends) :=
  ⟨outlines, describes, fun _ _ => rfl, inside⟩

theorem accepted_slice {inner : Waveform} {interval : Interval}
    {innerSeries series : LinearSeries} {innerOutlined : Outline} {lower upper : Decimal}
    (agree : EndsAgree bindings (.slice inner interval))
    (innerFilled : ∀ node ∈ inner.exposed, node ≠ .append [])
    (innerLowers : Lowers bindings inner innerSeries)
    (accepted : Accepted bindings inner innerSeries innerOutlined)
    (bounds : sliceBounds bindings (fun _ => (Waveform.slice inner interval).text) interval
      innerSeries.duration = .ok (lower, upper))
    (sliced : innerSeries.slice lower upper = .ok series) :
    ∃ outlined, Accepted bindings (.slice inner interval) series outlined := by
  obtain ⟨start, stop, startSame, stopSame⟩ := accepted.describes.present
  obtain ⟨meaning, _, _, means, total, _⟩ :=
    spanned_of_lowers inner innerSeries innerFilled innerLowers
  obtain ⟨startNumber, stopNumber, startOk, stopOk, _⟩ :=
    (slice_bounds_ok_iff _ _ _ _ _ _).1 bounds
  obtain ⟨startFound, startValued⟩ := bound_value_ok startSame means total startOk
  obtain ⟨stopFound, stopValued⟩ := bound_value_ok stopSame means total stopOk
  have lowers : Lowers bindings (.slice inner interval) series :=
    (slice_lowers_iff _ _ _).2 ⟨innerSeries, lower, upper, innerLowers, bounds, sliced⟩
  rw [accepted.describes.spans.lasts] at bounds
  have outlines := (slice_outlines_iff _ inner interval).2
    ⟨innerOutlined, lower, upper, _, _, accepted.outlines, bounds, startValued, stopValued, rfl⟩
  have spans := slice_spans accepted.describes.spans.formed sliced
  refine ⟨_, outlines, ⟨spans.own, ⟨startFound, stopFound, rfl, rfl⟩,
    fun _ => agree.fits outlines lowers⟩, ?_, ?_⟩
  · intro window offset
    exact accepted.continuous _ _
  · simp only [exposed, List.mem_cons, forall_eq_or_imp]
    exact ⟨accepted.validates, accepted.inside⟩

theorem accepted_sample {inner : Waveform} {step : Scalar} {series : LinearSeries}
    (agree : EndsAgree bindings (.sample inner step .linear))
    (tidied : ∀ node ∈ inner.nodes, ∀ scalar ∈ node.scalars, scalar.tidy = true)
    (lowers : Lowers bindings (.sample inner step .linear) series) :
    ∃ outlined, Accepted bindings (.sample inner step .linear) series outlined := by
  obtain ⟨_, meaning, points, means, found, rfl⟩ := (sample_lowers_iff _ _ _ _).1 lowers
  have bounded := signal_bounded bindings inner meaning means
  obtain ⟨first, last, firstOk, lastOk, spans⟩ := samples_span bounded.nonneg found
  have lasts := duration_of_signal means
  have known := symbolic_duration_known inner meaning.duration tidied lasts
  have zeroOk : Scalar.zero.eval bindings = .ok 0 := rfl
  obtain ⟨start, startValued⟩ := value_at_ok means zeroOk ⟨first, firstOk⟩
  obtain ⟨stop, stopValued⟩ := value_at_ok means known.evaluates ⟨last, lastOk⟩
  have outlines := (sample_outlines_iff _ inner step .linear).2
    ⟨rfl, meaning.duration, start, stop, lasts, startValued, stopValued, rfl⟩
  refine ⟨_, accepted_leaf outlines ⟨spans.own, ⟨start, stop, rfl, rfl⟩, fun _ =>
    agree.fits outlines lowers⟩ ?_⟩
  simp only [exposed, List.mem_singleton, forall_eq]
  refine ⟨points, ?_⟩
  unfold samplePoints?
  dsimp only
  rw [means, Outcome.ok_bind, found]

theorem accepted_add {left right : Waveform} {leftSeries rightSeries series : LinearSeries}
    {leftOutlined rightOutlined : Outline}
    (leftAccepted : Accepted bindings left leftSeries leftOutlined)
    (rightAccepted : Accepted bindings right rightSeries rightOutlined)
    (leftFits : Fits bindings leftOutlined.ends leftSeries)
    (rightFits : Fits bindings rightOutlined.ends rightSeries)
    (summed : leftSeries.plus rightSeries = .ok series) :
    ∃ outlined, Accepted bindings (.add left right) series outlined := by
  obtain ⟨ends, added, described⟩ := sum_of_ends_describes leftAccepted.describes
    rightAccepted.describes leftFits rightFits summed
  have dropout := (dropout_ok_iff 0 leftAccepted.describes rightAccepted.describes leftFits
    rightFits).1 ⟨series, summed⟩
  refine ⟨_, (add_outlines_iff _ _ _).2 ⟨leftOutlined, rightOutlined, ends, leftAccepted.outlines,
    rightAccepted.outlines, added, rfl⟩, described, fun window offset => ?_, ?_⟩
  · rw [sum_continuity_iff]
    exact ⟨check_dropout_ok_at window offset dropout, leftAccepted.continuous window offset,
      rightAccepted.continuous window offset⟩
  · simp only [exposed, List.mem_cons, List.mem_append, forall_eq_or_imp]
    exact ⟨trivial, fun node member => member.elim (leftAccepted.inside node)
      (rightAccepted.inside node)⟩

theorem Accepted.all {parts : List Waveform} {serieses : List LinearSeries}
    (each : List.Forall₂ (fun part series => ∃ outlined, Accepted bindings part series outlined)
      parts serieses) :
    ∃ outlines, List.Forall₂ (Outlines bindings) parts outlines ∧
      List.Forall₂ (Describes bindings) (outlines.map Outline.ends) serieses ∧
      (∀ window offset, continuityAll bindings window offset outlines = .ok ()) ∧
      ∀ part ∈ parts, ∀ node ∈ part.exposed, WholeInside bindings node := by
  induction each with
  | nil => exact ⟨[], List.Forall₂.nil, List.Forall₂.nil, fun _ _ => rfl, by simp⟩
  | cons accepted _ ih =>
      obtain ⟨outlined, accepted⟩ := accepted
      obtain ⟨outlines, outlined', described, continuous, inside⟩ := ih
      refine ⟨outlined :: outlines, List.Forall₂.cons accepted.outlines outlined',
        List.Forall₂.cons accepted.describes described, fun window offset => ?_, ?_⟩
      · rw [continuity_all_cons_iff]
        exact ⟨accepted.continuous window offset, continuous window _⟩
      · simpa using ⟨accepted.inside, inside⟩

theorem accepted_append {part : Waveform} {others : List Waveform} {first series : LinearSeries}
    {rest : List LinearSeries} {outlined : Outline}
    (accepted : Accepted bindings part first outlined)
    (each : List.Forall₂ (fun other otherSeries =>
      ∃ outlined, Accepted bindings other otherSeries outlined) others rest)
    (joins : concatenate (some first) (rest.map some) = .ok (some series)) :
    ∃ outlined, Accepted bindings (.append (part :: others)) series outlined := by
  obtain ⟨outlines, allOutlined, described, continuous, inside⟩ := Accepted.all each
  have joints := (joints_of_first_iff 0 accepted.describes described).1 ⟨series, joins⟩
  refine ⟨_, (append_outlines_iff _ _).2 ⟨outlined :: outlines,
    List.Forall₂.cons accepted.outlines allOutlined, rfl⟩, ?_, fun window offset => ?_, ?_⟩
  · have start : Describes bindings (followEnds ⟨none, none, 0⟩ outlined.ends) first :=
      follow_first_describes accepted.describes rfl
    have whole := joined_describe described start joins
    exact whole
  · rw [append_continuity_iff, continuity_all_cons_iff]
    exact ⟨check_joints_ok_at window offset joints, accepted.continuous window offset,
      continuous window _⟩
  · simp only [exposed, List.mem_cons, mem_exposed_all, forall_eq_or_imp]
    refine ⟨trivial, ?_⟩
    rintro node ⟨other, rfl | member, nodeMember⟩
    · exact accepted.inside node nodeMember
    · exact inside other member node nodeMember

/-- What the comparison of outline and series needs to know of a waveform. -/
structure Comparable (bindings : ScalarBindings) (waveform : Waveform) : Prop where
  filled : ∀ node ∈ waveform.exposed, node ≠ .append []
  tidied : ∀ node ∈ waveform.nodes, ∀ scalar ∈ node.scalars, scalar.tidy = true
  settled : ∀ node ∈ waveform.exposed, Settled bindings node

theorem Comparable.child {waveform child : Waveform} (comparable : Comparable bindings waveform)
    (member : child ∈ waveform.children) (isExposed : child.exposed ⊆ waveform.exposed) :
    Comparable bindings child :=
  ⟨fun node nodeMember => comparable.filled node (isExposed nodeMember),
    ((each_node_iff _ _).1 comparable.tidied).2 child member,
    fun node nodeMember => comparable.settled node (isExposed nodeMember)⟩

theorem Comparable.part {parts : List Waveform} {part : Waveform}
    (comparable : Comparable bindings (.append parts)) (member : part ∈ parts) :
    Comparable bindings part := by
  apply comparable.child member
  intro node nodeMember
  simp only [exposed, List.mem_cons, mem_exposed_all]
  exact Or.inr ⟨part, member, nodeMember⟩

/-- Whatever lowers is valid, and so is the waveform inside each of its slices. -/
theorem accepted_of_lowers (waveform : Waveform) (series : LinearSeries)
    (comparable : Comparable bindings waveform) (lowers : Lowers bindings waveform series) :
    ∃ outlined, Accepted bindings waveform series outlined := by
  induction waveform using Waveform.parts_induction generalizing series with
  | constant value duration =>
      obtain ⟨length, number, durationOk, nonneg, valueOk, rfl⟩ :=
        (constant_lowers_iff _ _ _).1 lowers
      refine ⟨_, accepted_leaf ((constant_outlines_iff _ _ _).2 ⟨length, durationOk, nonneg, rfl⟩)
        (describes_of_spans (line_spans nonneg) (fun _ => valueOk) fun lasting => ?_)
        (by simp [exposed, WholeInside])⟩
      rw [if_neg lasting]
      exact valueOk
  | ramp start stop duration =>
      obtain ⟨length, first, last, durationOk, nonneg, startOk, stopOk, rfl⟩ :=
        (ramp_lowers_iff _ _ _ _).1 lowers
      refine ⟨_, accepted_leaf ((ramp_outlines_iff _ _ _ _).2 ⟨length, durationOk, nonneg, rfl⟩)
        (describes_of_spans (line_spans nonneg) (fun _ => startOk) fun lasting => ?_)
        (by simp [exposed, WholeInside])⟩
      rw [if_neg lasting]
      exact stopOk
  | poly coefficients duration =>
      obtain ⟨length, values, durationOk, nonneg, valuesOk, low, rfl⟩ :=
        (poly_lowers_iff _ _ _).1 lowers
      refine ⟨_, accepted_leaf ((poly_outlines_iff _ _ _).2
        ⟨length, values, durationOk, nonneg, valuesOk, low, rfl⟩)
        (describes_of_spans (line_spans nonneg) (fun _ => first_coefficient_eval valuesOk)
          fun lasting => ?_) (by simp [exposed, WholeInside])⟩
      rw [if_neg lasting]
      exact polynomial_eval durationOk valuesOk
  | native name function duration parameters => exact absurd lowers (native_not_lowers _ _ _ _ _)
  | negative inner ih =>
      obtain ⟨innerSeries, innerLowers, rfl⟩ := (negative_lowers_iff _ _).1 lowers
      obtain ⟨innerOutlined, accepted⟩ := ih innerSeries
        (comparable.child (by simp [children]) (by simp [exposed])) innerLowers
      obtain ⟨ends, mapped, described⟩ := map_ends_describes (fun expression value evaluates =>
        (Scalar.eval_negative_ok_iff _ _).2 ⟨value, evaluates, rfl⟩) accepted.describes
      exact ⟨_, (negative_outlines_iff _ _).2 ⟨innerOutlined, ends, accepted.outlines, mapped, rfl⟩,
        described, accepted.continuous, by simpa [exposed, WholeInside] using accepted.inside⟩
  | add left right leftIh rightIh =>
      obtain ⟨leftSeries, rightSeries, leftLowers, rightLowers, summed⟩ :=
        (add_lowers_iff _ _ _).1 lowers
      have leftComparable : Comparable bindings left :=
        comparable.child (by simp [children]) (by simp [exposed])
      have rightComparable : Comparable bindings right :=
        comparable.child (by simp [children]) (by simp [exposed])
      obtain ⟨leftAgree, rightAgree⟩ := comparable.settled (.add left right) (by simp [exposed])
      obtain ⟨leftOutlined, leftAccepted⟩ := leftIh leftSeries leftComparable leftLowers
      obtain ⟨rightOutlined, rightAccepted⟩ := rightIh rightSeries rightComparable rightLowers
      exact accepted_add leftAccepted rightAccepted
        (operand_fits leftComparable.filled leftAgree leftAccepted.outlines leftLowers
          leftAccepted.describes)
        (operand_fits rightComparable.filled rightAgree rightAccepted.outlines rightLowers
          rightAccepted.describes) summed
  | scale factor inner ih =>
      obtain ⟨innerSeries, number, innerLowers, factorOk, rfl⟩ := (scale_lowers_iff _ _ _).1 lowers
      obtain ⟨innerOutlined, accepted⟩ := ih innerSeries
        (comparable.child (by simp [children]) (by simp [exposed])) innerLowers
      obtain ⟨ends, mapped, described⟩ := map_ends_describes (fun expression value evaluates =>
        (Scalar.eval_mul_ok_iff factor _ _).2 ⟨number, value, factorOk, evaluates, rfl⟩)
        accepted.describes
      exact ⟨_, (scale_outlines_iff _ _ _).2
        ⟨innerOutlined, ends, accepted.outlines, mapped, rfl⟩, described, accepted.continuous,
        by simpa [exposed, WholeInside] using accepted.inside⟩
  | slice inner interval ih =>
      obtain ⟨innerSeries, lower, upper, innerLowers, bounds, sliced⟩ :=
        (slice_lowers_iff _ _ _).1 lowers
      have innerComparable : Comparable bindings inner :=
        comparable.child (by simp [children]) (by simp [exposed])
      obtain ⟨innerOutlined, accepted⟩ := ih innerSeries innerComparable innerLowers
      exact accepted_slice (comparable.settled (.slice inner interval) (by simp [exposed]))
        innerComparable.filled innerLowers accepted bounds sliced
  | append parts ih =>
      obtain ⟨first, rest, part, others, rfl, partLowers, othersLower, joins⟩ :=
        (append_lowers_iff _ comparable.filled _).1 lowers
      obtain ⟨outlined, accepted⟩ :=
        ih part (by simp) first (comparable.part (by simp)) partLowers
      exact accepted_append accepted (Outcome.related_of_mem othersLower
        fun other member otherSeries => ih other (by simp [member]) otherSeries
          (comparable.part (by simp [member]))) joins
  | record name inner side ih =>
      obtain ⟨innerOutlined, accepted⟩ := ih series
        (comparable.child (by simp [children]) (by simp [exposed])) lowers
      exact ⟨_, (record_outlines_iff _ _ _ _).2 ⟨innerOutlined, accepted.outlines, rfl⟩,
        accepted.describes, accepted.continuous,
        by simpa [exposed, WholeInside] using accepted.inside⟩
  | sample inner step interpolation ih =>
      obtain ⟨rfl, _⟩ := (sample_lowers_iff _ _ _ _).1 lowers
      exact accepted_sample (comparable.settled (.sample inner step .linear) (by simp [exposed]))
        (((each_node_iff _ _).1 comparable.tidied).2 inner (by simp [children])) lowers
  | smooth inner radius kernel => exact absurd lowers (smooth_not_lowers _ _ _ _)
  | aligned inner alignment fill ih =>
      obtain ⟨innerOutlined, accepted⟩ := ih series
        (comparable.child (by simp [children]) (by simp [exposed])) lowers
      exact ⟨_, (aligned_outlines_iff _ _ _ _).2 ⟨innerOutlined, accepted.outlines, rfl⟩,
        accepted.describes, accepted.continuous,
        by simpa [exposed, WholeInside] using accepted.inside⟩

/-- What is known of a waveform that is to be lowered. -/
structure Lowerable (bindings : ScalarBindings) (waveform : Waveform) : Prop extends
    Comparable bindings waveform where
  evaluates : ∀ node ∈ waveform.exposed, ∀ scalar ∈ node.scalars,
    ∃ value, scalar.eval bindings = .ok value
  inside : ∀ node ∈ waveform.exposed, WholeInside bindings node

theorem Lowerable.child {waveform child : Waveform} (lowerable : Lowerable bindings waveform)
    (member : child ∈ waveform.children) (isExposed : child.exposed ⊆ waveform.exposed) :
    Lowerable bindings child :=
  ⟨lowerable.toComparable.child member isExposed,
    fun node nodeMember => lowerable.evaluates node (isExposed nodeMember),
    fun node nodeMember => lowerable.inside node (isExposed nodeMember)⟩

theorem Lowerable.own {waveform : Waveform} (lowerable : Lowerable bindings waveform)
    {scalar : Scalar} (member : scalar ∈ waveform.scalars) :
    ∃ value, scalar.eval bindings = .ok value :=
  lowerable.evaluates waveform (self_mem_exposed waveform) scalar member

theorem describes_of_lowers {waveform : Waveform} {series : LinearSeries} {outlined : Outline}
    (comparable : Comparable bindings waveform) (lowers : Lowers bindings waveform series)
    (outlines : Outlines bindings waveform outlined) :
    Describes bindings outlined.ends series := by
  obtain ⟨found, accepted⟩ := accepted_of_lowers waveform series comparable lowers
  have same := accepted.outlines.symm.trans outlines
  rw [Except.ok.injEq] at same
  subst same
  exact accepted.describes

theorem all_lower_of_outlines {parts : List Waveform} {outlines : List Outline} (offset : Decimal)
    (each : ∀ part ∈ parts, ∀ outlined offset, Outlines bindings part outlined →
      continuity bindings none offset outlined = .ok () → ∃ series, Lowers bindings part series)
    (comparable : ∀ part ∈ parts, Comparable bindings part)
    (allOutlined : List.Forall₂ (Outlines bindings) parts outlines)
    (continuous : continuityAll bindings none offset outlines = .ok ()) :
    ∃ serieses, List.Forall₂ (Lowers bindings) parts serieses ∧
      List.Forall₂ (Describes bindings) (outlines.map Outline.ends) serieses := by
  induction allOutlined generalizing offset with
  | nil => exact ⟨[], List.Forall₂.nil, List.Forall₂.nil⟩
  | @cons part outlined parts outlines partOutlines _ ih =>
      rw [continuity_all_cons_iff] at continuous
      obtain ⟨series, lowers⟩ := each part (by simp) outlined offset partOutlines continuous.1
      obtain ⟨serieses, restLower, described⟩ := ih _
        (fun other member => each other (by simp [member]))
        (fun other member => comparable other (by simp [member])) continuous.2
      exact ⟨series :: serieses, List.Forall₂.cons lowers restLower, List.Forall₂.cons
        (describes_of_lowers (comparable part (by simp)) lowers partOutlines) described⟩

/-- An outline without a jump belongs to a waveform that lowers. -/
theorem lowers_of_outlines (waveform : Waveform) (outlined : Outline) (offset : Decimal)
    (lowerable : Lowerable bindings waveform) (outlines : Outlines bindings waveform outlined)
    (continuous : continuity bindings none offset outlined = .ok ()) :
    ∃ series, Lowers bindings waveform series := by
  induction waveform using Waveform.parts_induction generalizing outlined offset with
  | constant value duration =>
      obtain ⟨length, durationOk, nonneg, rfl⟩ := (constant_outlines_iff _ _ _).1 outlines
      obtain ⟨number, valueOk⟩ := lowerable.own (by simp [scalars] : value ∈ _)
      exact ⟨_, (constant_lowers_iff _ _ _).2 ⟨length, number, durationOk, nonneg, valueOk, rfl⟩⟩
  | ramp start stop duration =>
      obtain ⟨length, durationOk, nonneg, rfl⟩ := (ramp_outlines_iff _ _ _ _).1 outlines
      obtain ⟨first, startOk⟩ := lowerable.own (by simp [scalars] : start ∈ _)
      obtain ⟨last, stopOk⟩ := lowerable.own (by simp [scalars] : stop ∈ _)
      exact ⟨_, (ramp_lowers_iff _ _ _ _).2
        ⟨length, first, last, durationOk, nonneg, startOk, stopOk, rfl⟩⟩
  | poly coefficients duration =>
      obtain ⟨length, values, durationOk, nonneg, valuesOk, low, rfl⟩ :=
        (poly_outlines_iff _ _ _).1 outlines
      exact ⟨_, (poly_lowers_iff _ _ _).2 ⟨length, values, durationOk, nonneg, valuesOk, low, rfl⟩⟩
  | native name function duration parameters =>
      exact absurd outlines (native_not_outlines _ _ _ _ _)
  | negative inner ih =>
      obtain ⟨innerOutlined, ends, innerOutlines, _, rfl⟩ := (negative_outlines_iff _ _).1 outlines
      obtain ⟨series, lowers⟩ := ih innerOutlined offset
        (lowerable.child (by simp [children]) (by simp [exposed])) innerOutlines continuous
      exact ⟨_, (negative_lowers_iff _ _).2 ⟨series, lowers, rfl⟩⟩
  | add left right leftIh rightIh =>
      obtain ⟨leftOutlined, rightOutlined, ends, leftOutlines, rightOutlines, _, rfl⟩ :=
        (add_outlines_iff _ _ _).1 outlines
      rw [sum_continuity_iff] at continuous
      have leftLowerable : Lowerable bindings left :=
        lowerable.child (by simp [children]) (by simp [exposed])
      have rightLowerable : Lowerable bindings right :=
        lowerable.child (by simp [children]) (by simp [exposed])
      obtain ⟨leftSeries, leftLowers⟩ :=
        leftIh leftOutlined offset leftLowerable leftOutlines continuous.2.1
      obtain ⟨rightSeries, rightLowers⟩ :=
        rightIh rightOutlined offset rightLowerable rightOutlines continuous.2.2
      have leftDescribed :=
        describes_of_lowers leftLowerable.toComparable leftLowers leftOutlines
      have rightDescribed :=
        describes_of_lowers rightLowerable.toComparable rightLowers rightOutlines
      obtain ⟨leftAgree, rightAgree⟩ := lowerable.settled _ (self_mem_exposed _)
      obtain ⟨sum, summed⟩ := (dropout_ok_iff offset leftDescribed rightDescribed
        (operand_fits leftLowerable.filled leftAgree leftOutlines leftLowers leftDescribed)
        (operand_fits rightLowerable.filled rightAgree rightOutlines rightLowers
          rightDescribed)).2 continuous.1
      exact ⟨sum, (add_lowers_iff _ _ _).2
        ⟨leftSeries, rightSeries, leftLowers, rightLowers, summed⟩⟩
  | scale factor inner ih =>
      obtain ⟨innerOutlined, ends, innerOutlines, _, rfl⟩ := (scale_outlines_iff _ _ _).1 outlines
      obtain ⟨series, lowers⟩ := ih innerOutlined offset
        (lowerable.child (by simp [children]) (by simp [exposed])) innerOutlines continuous
      obtain ⟨number, factorOk⟩ := lowerable.own (by simp [scalars] : factor ∈ _)
      exact ⟨_, (scale_lowers_iff _ _ _).2 ⟨series, number, lowers, factorOk, rfl⟩⟩
  | slice inner interval ih =>
      obtain ⟨innerOutlined, lower, upper, start, stop, innerOutlines, bounds, _, _, rfl⟩ :=
        (slice_outlines_iff _ _ _).1 outlines
      have innerLowerable : Lowerable bindings inner :=
        lowerable.child (by simp [children]) (by simp [exposed])
      -- The waveform inside has been validated by itself.
      obtain ⟨found, foundOutlines, foundContinuous⟩ :=
        (validate_ok_iff inner).1 (lowerable.inside _ (self_mem_exposed _))
      have same := foundOutlines.symm.trans innerOutlines
      rw [Except.ok.injEq] at same
      subst same
      obtain ⟨series, lowers⟩ := ih found 0 innerLowerable innerOutlines foundContinuous
      have described := describes_of_lowers innerLowerable.toComparable lowers innerOutlines
      rw [← described.spans.lasts] at bounds
      obtain ⟨_, _, _, _, _, _, nonneg, ordered, reached⟩ :=
        (slice_bounds_ok_iff _ _ _ _ _ _).1 bounds
      exact ⟨_, (slice_lowers_iff _ _ _).2 ⟨series, lower, upper, lowers, bounds,
        (slice_ok_iff lower upper).2 ⟨⟨nonneg, ordered, reached⟩, rfl⟩⟩⟩
  | append parts ih =>
      obtain ⟨outlinedParts, allOutlined, rfl⟩ := (append_outlines_iff _ _).1 outlines
      rw [append_continuity_iff] at continuous
      have partLowerable : ∀ part ∈ parts, Lowerable bindings part := by
        intro part member
        apply lowerable.child member
        intro node nodeMember
        simp only [exposed, List.mem_cons, mem_exposed_all]
        exact Or.inr ⟨part, member, nodeMember⟩
      obtain ⟨serieses, allLower, described⟩ := all_lower_of_outlines offset
        (fun part member outlined offset => ih part member outlined offset
          (partLowerable part member))
        (fun part member => (partLowerable part member).toComparable) allOutlined continuous.2
      cases allOutlined with
      | nil => exact absurd rfl (lowerable.filled _ (self_mem_exposed _))
      | @cons part outlined others outlinedOthers _ _ =>
          cases allLower with
          | @cons _ first _ rest partLowers othersLower =>
              cases described with
              | cons partDescribed othersDescribed =>
                  obtain ⟨whole, joins⟩ := (joints_of_first_iff offset partDescribed
                    othersDescribed).2 continuous.1
                  exact ⟨whole, (append_lowers_iff _ lowerable.filled _).2
                    ⟨first, rest, part, others, rfl, partLowers, othersLower, joins⟩⟩
  | record name inner side ih =>
      obtain ⟨innerOutlined, innerOutlines, rfl⟩ := (record_outlines_iff _ _ _ _).1 outlines
      exact ih innerOutlined offset (lowerable.child (by simp [children]) (by simp [exposed]))
        innerOutlines continuous
  | sample inner step interpolation ih =>
      obtain ⟨rfl, _⟩ := (sample_outlines_iff _ _ _ _).1 outlines
      obtain ⟨points, found⟩ := lowerable.inside _ (self_mem_exposed _)
      rw [samplePoints?, Option.some.injEq] at found
      obtain ⟨meaning, means, found⟩ := (Outcome.bind_ok_iff _ _ _).1 found
      exact ⟨_, (sample_lowers_iff _ _ _ _).2 ⟨rfl, meaning, points, means, found, rfl⟩⟩
  | smooth inner radius kernel => exact absurd outlines (smooth_not_outlines _ _ _ _)
  | aligned inner alignment fill ih =>
      obtain ⟨innerOutlined, innerOutlines, rfl⟩ := (aligned_outlines_iff _ _ _ _).1 outlines
      exact ih innerOutlined offset (lowerable.child (by simp [children]) (by simp [exposed]))
        innerOutlines continuous

theorem whole_inside_iff (waveform : Waveform) :
    (∀ node ∈ waveform.exposed, WholeInside bindings node) ↔
      (∀ inner interval, .slice inner interval ∈ waveform.exposed →
        validate bindings .linear inner = .ok ()) ∧
      ∀ inner step interpolation, .sample inner step interpolation ∈ waveform.exposed →
        ∃ points, samplePoints? bindings (.sample inner step interpolation) =
          some (.ok points) := by
  constructor
  · intro inside
    exact ⟨fun inner interval member => inside _ member,
      fun inner step interpolation member => inside _ member⟩
  · rintro ⟨slices, samples⟩ node member
    cases node with
    | slice inner interval => exact slices inner interval member
    | sample inner step interpolation => exact samples inner step interpolation member
    | _ => exact trivial

/-- A waveform has a linear series exactly when it is valid, the waveform inside each of its slices
is valid by itself, and all samples can be taken. The validator looks at neither of the last
two. The operands of each minimum and maximum are all different, as its constructor leaves
them, and values that are computed in two ways agree. -/
theorem lower_linear_iff_validate (waveform : Waveform)
    (filled : ∀ node ∈ waveform.exposed, node ≠ .append [])
    (tidied : ∀ node ∈ waveform.nodes, ∀ scalar ∈ node.scalars, scalar.tidy = true)
    (evaluates : ∀ node ∈ waveform.exposed, ∀ scalar ∈ node.scalars,
      ∃ value, scalar.eval bindings = .ok value)
    (settled : ∀ node ∈ waveform.exposed, Settled bindings node) :
    (∃ series, lowerLinear bindings waveform = .ok series) ↔
      validate bindings .linear waveform = .ok () ∧
      (∀ inner interval, .slice inner interval ∈ waveform.exposed →
        validate bindings .linear inner = .ok ()) ∧
      ∀ inner step interpolation, .sample inner step interpolation ∈ waveform.exposed →
        ∃ points, samplePoints? bindings (.sample inner step interpolation) =
          some (.ok points) := by
  rw [← whole_inside_iff]
  simp only [lower_linear_ok_iff]
  constructor
  · rintro ⟨series, lowers⟩
    obtain ⟨outlined, accepted⟩ :=
      accepted_of_lowers waveform series ⟨filled, tidied, settled⟩ lowers
    exact ⟨accepted.validates, accepted.inside⟩
  · rintro ⟨valid, inside⟩
    obtain ⟨outlined, outlines, continuous⟩ := (validate_ok_iff waveform).1 valid
    exact lowers_of_outlines waveform outlined 0 ⟨⟨filled, tidied, settled⟩, evaluates, inside⟩
      outlines continuous

end

/-- A slice of a line and the samples of another, which starts where the slice ends. -/
def slicedThenSampled : Waveform :=
  .append
    [.slice (.ramp (.literal 0) (.literal 4) (.literal 4)) ⟨some (.literal 1), some (.literal 3)⟩,
      .sample (.ramp (.literal 3) (.literal 5) (.literal 2)) (.literal 1) .linear]

theorem lower_linear_iff_validate_sliced :
    (∃ series, lowerLinear .empty slicedThenSampled = .ok series) ∧
      validate .empty .linear slicedThenSampled = .ok () := by
  have valid : validate .empty .linear slicedThenSampled = .ok () := rfl
  refine ⟨(lower_linear_iff_validate slicedThenSampled (by simp [slicedThenSampled, exposed,
    exposedAll]) (by decide) (by decide) (by decide)).2 ⟨valid, ?_, ?_⟩, valid⟩
  · intro inner interval member
    simp only [slicedThenSampled, exposed, exposedAll, List.mem_cons, List.mem_append,
      List.not_mem_nil, or_false, reduceCtorEq, false_or, slice.injEq] at member
    obtain ⟨rfl, rfl⟩ := member
    rfl
  · intro inner step interpolation member
    simp only [slicedThenSampled, exposed, exposedAll, List.mem_cons, List.mem_append,
      List.not_mem_nil, or_false, reduceCtorEq, false_or, sample.injEq] at member
    obtain ⟨rfl, rfl, rfl⟩ := member
    exact ⟨⟨[0, 1, 2], [3, 4, 5]⟩, rfl⟩

/-- A jump from one to two in the middle, and what comes after it. -/
def afterJump : Waveform :=
  .slice (.append [.ramp (.literal 0) (.literal 1) (.literal 1),
    .ramp (.literal 2) (.literal 3) (.literal 1)])
    ⟨some (.literal (.ofScaled 15 1)), some (.literal 2)⟩

/-- The validator does not see a jump that is sliced away, but lowering fails at it. -/
theorem hidden_jump_valid_not_lowered :
    validate .empty .linear afterJump = .ok () ∧
      ¬∃ series, lowerLinear .empty afterJump = .ok series := by
  refine ⟨rfl, ?_⟩
  decide

end Analog.Waveform
