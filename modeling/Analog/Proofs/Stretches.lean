import Analog.Proofs.ConstantValidation
import Analog.Proofs.FixedForms
import Analog.Proofs.NestedAppends
import Analog.Proofs.Neighbours
import Analog.Proofs.WaveformMeaning

/-!
# Stretches

Whether the parts of an append can be joined depends on how each of them starts and ends, and on
whether it lasts at all. These stretches form a monoid in which a part that cannot be lowered, or
a joint that jumps, breaks the whole.
-/

set_option autoImplicit false

namespace Analog

/-- What other parts notice of a series. -/
inductive Stretch where
  /-- It lasts no time, and leaves no trace beside others. -/
  | instant
  | run (start stop : Decimal)
  /-- There is no series. -/
  | broken
  deriving DecidableEq

namespace Stretch

def follow : Stretch → Stretch → Stretch
  | instant, second => second
  | first, instant => first
  | run start joint, run other stop => if joint = other then run start stop else broken
  | _, _ => broken

instance : Mul Stretch := ⟨follow⟩

instance : One Stretch := ⟨instant⟩

@[simp] theorem run_mul_run (start joint other stop : Decimal) :
    run start joint * run other stop = if joint = other then run start stop else broken := rfl

theorem instant_mul (second : Stretch) : instant * second = second := by
  cases second <;> rfl

theorem mul_instant (first : Stretch) : first * instant = first := by
  cases first <;> rfl

@[simp] theorem broken_mul (second : Stretch) : broken * second = broken := by
  cases second <;> rfl

@[simp] theorem mul_broken (first : Stretch) : first * broken = broken := by
  cases first <;> rfl

instance : Monoid Stretch where
  one_mul := instant_mul
  mul_one := mul_instant
  mul_assoc first second third := by
    cases first with
    | instant => simp only [instant_mul]
    | broken => simp only [broken_mul]
    | run start joint =>
        cases second with
        | instant => simp only [instant_mul, mul_instant]
        | broken => simp only [broken_mul, mul_broken]
        | run other next =>
            cases third with
            | instant => simp only [mul_instant]
            | broken => simp only [mul_broken]
            | run last stop =>
                simp only [run_mul_run]
                split_ifs <;> simp [*]

theorem prod_of_broken {stretches : List Stretch} (member : broken ∈ stretches) :
    stretches.prod = broken := by
  induction stretches with
  | nil => exact absurd member List.not_mem_nil
  | cons first rest ih =>
      rw [List.prod_cons]
      rcases List.mem_cons.1 member with rfl | later
      · exact broken_mul _
      · rw [ih later, mul_broken]

def map (f : Decimal → Decimal) : Stretch → Stretch
  | instant => instant
  | run start stop => run (f start) (f stop)
  | broken => broken

def rest (length : Decimal) : Stretch :=
  if length = 0 then instant else run 0 0

@[simp] theorem rest_zero : rest 0 = 1 := rfl

theorem rest_add {first second : Decimal} (firstNonneg : 0 ≤ first) (secondNonneg : 0 ≤ second) :
    rest (first + second) = rest first * rest second := by
  rcases firstNonneg.eq_or_lt with rfl | firstPositive
  · rw [zero_add, rest_zero, one_mul]
  rcases secondNonneg.eq_or_lt with rfl | secondPositive
  · rw [add_zero, rest_zero, mul_one]
  unfold rest
  rw [if_neg (add_pos firstPositive secondPositive).ne', if_neg firstPositive.ne',
    if_neg secondPositive.ne', run_mul_run, if_pos rfl]

theorem rest_sum {lengths : List Decimal} (nonneg : ∀ length ∈ lengths, 0 ≤ length) :
    rest lengths.sum = (lengths.map rest).prod := by
  induction lengths with
  | nil => rfl
  | cons first others ih =>
      obtain ⟨firstNonneg, othersNonneg⟩ := List.forall_mem_cons.1 nonneg
      rw [List.sum_cons, List.map_cons, List.prod_cons, ← ih othersNonneg]
      exact rest_add firstNonneg (List.sum_nonneg othersNonneg)

/-- The stretch of a line, which a constant series can have only if it is level. -/
def crossing (target : Target) (length start stop : Decimal) : Stretch :=
  if length = 0 then instant
  else
    match target with
    | .linear => run start stop
    | .constant => if start = stop then run 0 0 else broken

def bending (target : Target) (length : Decimal) (values : List Decimal) : Stretch :=
  match target with
  | .linear =>
    if (Lowering.significant values).length ≤ 2 then
      crossing .linear length (Signal.polynomialValue values 0)
        (Signal.polynomialValue values length)
    else broken
  | .constant =>
    if (Lowering.significant values).length ≤ 1 ∨ length = 0 then rest length else broken

theorem bending_linear (length : Decimal) (values : List Decimal) :
    bending .linear length values =
      if (Lowering.significant values).length ≤ 2 then
        crossing .linear length (Signal.polynomialValue values 0)
          (Signal.polynomialValue values length)
      else broken := rfl

theorem bending_constant (length : Decimal) (values : List Decimal) :
    bending .constant length values =
      if (Lowering.significant values).length ≤ 1 ∨ length = 0 then rest length else broken := rfl

theorem crossing_zero (target : Target) (length : Decimal) :
    crossing target length 0 0 = rest length := by
  cases target <;> simp [crossing, rest]

theorem crossing_constant (length value : Decimal) :
    crossing .constant length value value = rest length := by
  simp [crossing, rest]

/-- Where the first stretch is not broken, the second is the same. -/
def Stays (first second : Stretch) : Prop :=
  first ≠ broken → second = first

variable {first second third other : Stretch}

theorem Stays.refl (stretch : Stretch) : Stays stretch stretch :=
  fun _ => rfl

theorem stays_of_eq (same : second = first) : Stays first second :=
  fun _ => same

theorem Stays.whole (stays : Stays first second) (whole : first ≠ broken) : second ≠ broken := by
  rw [stays whole]
  exact whole

theorem Stays.trans (one : Stays first second) (two : Stays second third) : Stays first third :=
  fun whole => (two (one.whole whole)).trans (one whole)

theorem Stays.mul (one : Stays first second) (two : Stays third other) :
    Stays (first * third) (second * other) := by
  intro whole
  have firstWhole : first ≠ broken := fun isBroken => whole (by rw [isBroken, broken_mul])
  have thirdWhole : third ≠ broken := fun isBroken => whole (by rw [isBroken, mul_broken])
  rw [one firstWhole, two thirdWhole]

theorem Stays.map (stays : Stays first second) (f : Decimal → Decimal) :
    Stays (first.map f) (second.map f) := by
  intro whole
  rw [stays fun isBroken => whole (by rw [isBroken, Stretch.map])]

theorem Stays.prod {firsts seconds : List Stretch} (each : List.Forall₂ Stays firsts seconds) :
    Stays firsts.prod seconds.prod := by
  induction each with
  | nil => exact Stays.refl 1
  | cons first _ ih =>
      rw [List.prod_cons, List.prod_cons]
      exact first.mul ih

theorem map_map (f g : Decimal → Decimal) (stretch : Stretch) :
    (stretch.map f).map g = stretch.map fun value => g (f value) := by
  cases stretch <;> rfl

end Stretch

open Stretch

namespace Series

/-- What is noticed of a series. Constant series can always be joined. -/
def stretch (series : Series) : Stretch :=
  if series.duration.isZero then .instant
  else
    match series with
    | linear line => .run (line.eval 0) (line.eval line.duration)
    | constant _ => .run 0 0

variable {target : Target} {first second : Series}

theorem stretch_of_empty (empty : first.duration = 0) : first.stretch = .instant := by
  unfold stretch
  rw [if_pos ((Decimal.is_zero_iff _).2 empty)]

theorem stretch_of_linear {line : LinearSeries} {length start stop : Decimal}
    (spans : LinearSeries.Spans line length start stop) (lasts : length ≠ 0) :
    (linear line).stretch = .run start stop := by
  have sameDuration : (linear line).duration = length := spans.lasts
  unfold stretch
  rw [sameDuration, if_neg (mt (Decimal.is_zero_iff _).1 lasts)]
  dsimp only
  rw [spans.lasts, spans.eval_start, spans.eval_stop]

theorem stretch_of_constant {steps : ConstantSeries} (lasts : steps.duration ≠ 0) :
    (constant steps).stretch = .run 0 0 := by
  have sameDuration : (constant steps).duration = steps.duration := rfl
  unfold stretch
  rw [sameDuration, if_neg (mt (Decimal.is_zero_iff _).1 lasts)]

theorem stretch_ne_broken (series : Series) : series.stretch ≠ .broken := by
  unfold stretch
  split_ifs
  · simp
  · split <;> simp

theorem map_stretch {f : Decimal → Decimal} (zero : f 0 = 0) (formed : first.Formed target) :
    (first.map f).stretch = first.stretch.map f := by
  cases target with
  | linear =>
      obtain ⟨line, rfl, lineFormed⟩ := formed.linear
      have spans := LinearSeries.spans_of_formed lineFormed
      have mapped := LinearSeries.map_spans f spans
      rcases eq_or_ne line.duration 0 with empty | lasts
      · have mappedEmpty : (linear (line.map f)).duration = 0 := mapped.lasts.trans empty
        have isEmpty : (linear line).duration = 0 := empty
        rw [stretch_of_empty isEmpty, map, stretch_of_empty mappedEmpty, Stretch.map]
      · rw [stretch_of_linear spans lasts, map, stretch_of_linear mapped lasts, Stretch.map]
  | constant =>
      obtain ⟨steps, rfl, _⟩ := formed.constant
      have sameDuration : (steps.map f).duration = steps.duration := by
        rw [ConstantSeries.duration_map]
      rcases eq_or_ne steps.duration 0 with empty | lasts
      · have mappedEmpty : (constant (steps.map f)).duration = 0 := sameDuration.trans empty
        have isEmpty : (constant steps).duration = 0 := empty
        rw [stretch_of_empty isEmpty, map, stretch_of_empty mappedEmpty, Stretch.map]
      · rw [stretch_of_constant lasts, map, stretch_of_constant (sameDuration ▸ lasts), Stretch.map,
          zero]

end Series

def Outcome.stretch : Outcome Series → Stretch
  | .ok series => series.stretch
  | .error _ => .broken

namespace Outcome

theorem stretch_ne_broken_iff (outcome : Outcome Series) :
    outcome.stretch ≠ .broken ↔ ∃ series, outcome = .ok series := by
  cases outcome with
  | ok series => simpa [stretch] using series.stretch_ne_broken
  | error failure => simp [stretch]

theorem stretch_congr {outcome other : Outcome Series}
    (same : ∀ series, outcome = .ok series ↔ other = .ok series) :
    outcome.stretch = other.stretch := by
  cases outcome with
  | ok series => rw [(same series).1 rfl]
  | error failure =>
      cases other with
      | ok series => cases (same series).2 rfl
      | error _ => rfl

end Outcome

namespace Series

variable {target : Target}

theorem follow_stretch {first second : Series} (firstFormed : first.Formed target)
    (secondFormed : second.Formed target) :
    Outcome.stretch (first.follow second) = first.stretch * second.stretch := by
  rcases eq_or_ne second.duration 0 with secondEmpty | secondLasts
  · rw [follow_of_empty _ secondEmpty, stretch_of_empty secondEmpty, mul_instant]
    rfl
  rcases eq_or_ne first.duration 0 with firstEmpty | firstLasts
  · rw [follow_after_empty firstEmpty secondLasts, stretch_of_empty firstEmpty, instant_mul]
    rfl
  rw [follow_of_lasts firstLasts secondLasts]
  cases target with
  | linear =>
      obtain ⟨one, rfl, oneFormed⟩ := firstFormed.linear
      obtain ⟨two, rfl, twoFormed⟩ := secondFormed.linear
      have oneSpans := LinearSeries.spans_of_formed oneFormed
      have twoSpans := LinearSeries.spans_of_formed twoFormed
      have onePositive : 0 < one.duration := firstFormed.positive firstLasts
      have twoPositive : 0 < two.duration := secondFormed.positive secondLasts
      have joins := LinearSeries.append_ok_iff oneSpans twoSpans
      rw [stretch_of_linear oneSpans firstLasts, stretch_of_linear twoSpans secondLasts,
        run_mul_run, append]
      split_ifs with meet
      · rw [(joins _).2 ⟨meet, rfl⟩]
        exact stretch_of_linear (LinearSeries.append_spans oneSpans twoSpans onePositive)
          (add_pos onePositive twoPositive).ne'
      · cases appended : one.append two with
        | ok whole => exact absurd ((joins whole).1 appended).1 meet
        | error failure => rfl
  | constant =>
      obtain ⟨one, rfl, oneFormed⟩ := firstFormed.constant
      obtain ⟨two, rfl, twoFormed⟩ := secondFormed.constant
      have onePositive : 0 < one.duration := firstFormed.positive firstLasts
      have twoPositive : 0 < two.duration := secondFormed.positive secondLasts
      have lasts : (one.append two).duration ≠ 0 := by
        rw [ConstantSeries.duration_append oneFormed twoFormed]
        exact (add_pos onePositive twoPositive).ne'
      rw [stretch_of_constant firstLasts, stretch_of_constant secondLasts, run_mul_run, if_pos rfl]
      exact stretch_of_constant lasts

theorem join_all_stretch {serieses : List Series} (filled : serieses ≠ [])
    (each : ∀ series ∈ serieses, series.Formed target) :
    Outcome.stretch (joinAll serieses) = (serieses.map stretch).prod := by
  obtain ⟨first, rest, rfl⟩ := List.exists_cons_of_ne_nil filled
  induction rest generalizing first with
  | nil =>
      rw [List.map_singleton, List.prod_singleton]
      rfl
  | cons second rest ih =>
      obtain ⟨firstFormed, others⟩ := List.forall_mem_cons.1 each
      obtain ⟨secondFormed, restFormed⟩ := List.forall_mem_cons.1 others
      have follows := follow_stretch firstFormed secondFormed
      rw [List.map_cons, List.map_cons, List.prod_cons, List.prod_cons, ← mul_assoc, ← follows]
      rw [joinAll, List.foldlM_cons]
      cases followed : first.follow second with
      | error failure =>
          rw [Outcome.stretch, broken_mul]
          rfl
      | ok left =>
          have leftFormed := follow_formed firstFormed secondFormed followed
          have joined := ih left (List.cons_ne_nil _ _)
            (List.forall_mem_cons.2 ⟨leftFormed, restFormed⟩)
          rw [List.map_cons, List.prod_cons] at joined
          exact joined

end Series

theorem LinearSeries.line_stretch {length : Decimal} (nonneg : 0 ≤ length) (start stop : Decimal) :
    (Series.linear (.line length start stop)).stretch = crossing .linear length start stop := by
  have spans := @line_spans length start stop nonneg
  unfold crossing
  by_cases empty : length = 0
  · rw [if_pos empty]
    exact Series.stretch_of_empty (spans.lasts.trans empty)
  · rw [if_neg empty] at spans ⊢
    exact Series.stretch_of_linear spans empty

theorem ConstantSeries.level_stretch (length value : Decimal) :
    (Series.constant (.level length value)).stretch = rest length := by
  have lasts : (level length value).duration = length := duration_level length value
  unfold rest
  split_ifs with empty
  · exact Series.stretch_of_empty (lasts.trans empty)
  · exact Series.stretch_of_constant (lasts.symm ▸ empty)

end Analog
