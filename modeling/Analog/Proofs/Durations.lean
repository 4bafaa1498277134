import Analog.Proofs.ScalarEquality
import Analog.Proofs.Signals

/-!
# Durations as expressions

The duration of a waveform can be evaluated, or written down as an expression first. If the
minima and maxima in the waveform are as their constructors leave them, the expression has
the duration as its value.
-/

set_option autoImplicit false

namespace Analog.Scalar

structure Known (bindings : ScalarBindings) (scalar : Scalar) (value : Decimal) : Prop where
  tidied : scalar.tidy = true
  evaluates : scalar.eval bindings = .ok value

variable {bindings : ScalarBindings}

theorem minimum_tidy {operands : List Scalar} (each : ∀ operand ∈ operands, operand.tidy = true) :
    (minimum operands).tidy = true := by
  rw [minimum, tidy, unique_distinct, (tidy_all_iff _).2 fun operand member =>
    each operand (mem_of_mem_unique member)]
  rfl

theorem maximum_tidy {operands : List Scalar} (each : ∀ operand ∈ operands, operand.tidy = true) :
    (maximum operands).tidy = true := by
  rw [maximum, tidy, unique_distinct, (tidy_all_iff _).2 fun operand member =>
    each operand (mem_of_mem_unique member)]
  rfl

/-- The greater of two expressions has a value exactly when both have one, though only one of them
is kept if they are equal. -/
theorem eval_greater_ok_iff {left right : Scalar} (leftTidy : left.tidy = true)
    (rightTidy : right.tidy = true) (value : Decimal) :
    (maximum [left, right]).eval bindings = .ok value ↔
      ∃ first second, left.eval bindings = .ok first ∧ right.eval bindings = .ok second ∧
        value = Max.max first second := by
  have tidied : ∀ operand ∈ [left, right], operand.tidy = true := by
    simpa using ⟨leftTidy, rightTidy⟩
  rw [maximum, eval_max_ok_iff, chosen_unique_iff tidied, chosen_iff_fold choice_max]
  simp only [eval_all_ok_iff]
  constructor
  · rintro ⟨first, rest, each, rfl⟩
    cases each with
    | cons leftOk others =>
        cases others with
        | cons rightOk none =>
            cases none
            exact ⟨_, _, leftOk, rightOk, rfl⟩
  · rintro ⟨first, second, leftOk, rightOk, rfl⟩
    exact ⟨first, [second], .cons leftOk (.cons rightOk .nil), rfl⟩

theorem maximum_known {left right : Scalar} {first second : Decimal}
    (leftKnown : Known bindings left first) (rightKnown : Known bindings right second) :
    Known bindings (maximum [left, right]) (Max.max first second) := by
  constructor
  · apply maximum_tidy
    simpa using ⟨leftKnown.tidied, rightKnown.tidied⟩
  · rw [eval_greater_ok_iff leftKnown.tidied rightKnown.tidied]
    exact ⟨first, second, leftKnown.evaluates, rightKnown.evaluates, rfl⟩

theorem add_known {left right : Scalar} {first second : Decimal}
    (leftKnown : Known bindings left first) (rightKnown : Known bindings right second) :
    Known bindings (.add left right) (first + second) := by
  constructor
  · rw [tidy, leftKnown.tidied, rightKnown.tidied]
    rfl
  · exact (eval_add_ok_iff _ _ _).2
      ⟨first, second, leftKnown.evaluates, rightKnown.evaluates, rfl⟩

end Analog.Scalar

namespace Analog.Waveform

open Scalar

variable {bindings : ScalarBindings}

theorem sum_of_durations_known {durations : List Scalar} {values : List Decimal}
    (known : List.Forall₂ (Known bindings) durations values) :
    Known bindings (sumOfDurations durations) values.sum := by
  have folded : ∀ (rest : List Scalar) (others : List Decimal) (first : Scalar) (sum : Decimal),
      List.Forall₂ (Known bindings) rest others → Known bindings first sum →
      Known bindings (rest.foldl Scalar.add first) (sum + others.sum) := by
    intro rest others first sum related firstKnown
    induction related generalizing first sum with
    | nil =>
        rw [List.sum_nil, add_zero]
        exact firstKnown
    | @cons duration value _ _ durationKnown _ ih =>
        rw [List.sum_cons, ← add_assoc]
        exact ih _ _ (add_known firstKnown durationKnown)
  cases known with
  | nil => exact ⟨rfl, rfl⟩
  | cons firstKnown rest => exact folded _ _ _ _ rest firstKnown

theorem total_duration_ok_iff (parts : List Waveform) (total : Decimal) :
    totalDuration bindings parts = .ok total ↔
      ∃ values, List.Forall₂ (fun part value => duration bindings part = .ok value) parts values ∧
        total = values.sum := by
  induction parts generalizing total with
  | nil =>
      rw [totalDuration]
      simp [eq_comm]
  | cons part rest ih =>
      rw [totalDuration, Outcome.bind_ok_iff]
      constructor
      · rintro ⟨first, lasts, remaining⟩
        obtain ⟨others, restLasts, same⟩ := (Outcome.bind_ok_iff _ _ _).1 remaining
        rw [Outcome.pure_ok_iff] at same
        obtain ⟨values, each, rfl⟩ := (ih others).1 restLasts
        exact ⟨first :: values, List.Forall₂.cons lasts each, by rw [← same, List.sum_cons]⟩
      · rintro ⟨values, each, rfl⟩
        cases each with
        | @cons _ first _ others lasts restEach =>
            refine ⟨first, lasts, ?_⟩
            rw [(ih _).2 ⟨others, restEach, rfl⟩, List.sum_cons]
            rfl

/-- The duration as an expression has the duration as its value. -/
theorem symbolic_duration_known (waveform : Waveform) (length : Decimal)
    (tidied : ∀ node ∈ waveform.nodes, ∀ scalar ∈ node.scalars, scalar.tidy = true)
    (lasts : duration bindings waveform = .ok length) :
    Known bindings waveform.symbolicDuration length := by
  induction waveform using Waveform.parts_induction generalizing length with
  | constant value duration =>
      rw [each_node_iff] at tidied
      exact ⟨tidied.1 duration (by simp [scalars]), ((leaf_duration_ok_iff _ _ _).1 lasts).1⟩
  | ramp start stop duration =>
      rw [each_node_iff] at tidied
      exact ⟨tidied.1 duration (by simp [scalars]), ((leaf_duration_ok_iff _ _ _).1 lasts).1⟩
  | poly coefficients duration =>
      rw [each_node_iff] at tidied
      exact ⟨tidied.1 duration (by simp [scalars]), ((leaf_duration_ok_iff _ _ _).1 lasts).1⟩
  | native name function duration parameters =>
      rw [each_node_iff] at tidied
      exact ⟨tidied.1 duration (by simp [scalars]), ((leaf_duration_ok_iff _ _ _).1 lasts).1⟩
  | add left right leftIh rightIh =>
      rw [each_node_iff] at tidied
      rw [duration, Outcome.bind_ok_iff] at lasts
      obtain ⟨first, leftLasts, rest⟩ := lasts
      obtain ⟨second, rightLasts, same⟩ := (Outcome.bind_ok_iff _ _ _).1 rest
      rw [Outcome.pure_ok_iff] at same
      subst same
      exact maximum_known (leftIh first (tidied.2 left (by simp [children])) leftLasts)
        (rightIh second (tidied.2 right (by simp [children])) rightLasts)
  | slice inner interval ih =>
      rw [each_node_iff] at tidied
      rw [duration, Outcome.bind_ok_iff] at lasts
      obtain ⟨extent, innerLasts, rest⟩ := lasts
      obtain ⟨⟨lower, upper⟩, bounds, same⟩ := (Outcome.bind_ok_iff _ _ _).1 rest
      rw [Outcome.pure_ok_iff] at same
      subst same
      obtain ⟨start, stop, startOk, stopOk, rfl, rfl, ordered⟩ :=
        (slice_bounds_ok_iff _ _ _ _ _ _).1 bounds
      have extentKnown := ih extent (tidied.2 inner (by simp [children])) innerLasts
      have boundsTidy := tidied.1
      simp only [scalars, Interval.bounds, List.mem_append, Option.mem_toList] at boundsTidy
      constructor
      · rw [symbolicDuration, tidy, extentKnown.tidied,
          (tidy_bound_iff _).2 fun given member => boundsTidy given (Or.inl member),
          (tidy_bound_iff _).2 fun given member => boundsTidy given (Or.inr member)]
        rfl
      · exact (eval_slice_ok_iff _ _ _ _).2 ⟨extent, start, stop, extentKnown.evaluates, startOk,
          stopOk, (slice_length_ok_iff _ _ _ _).2 ⟨ordered, rfl⟩⟩
  | append parts ih =>
      rw [each_node_iff] at tidied
      rw [duration, total_duration_ok_iff] at lasts
      obtain ⟨values, each, rfl⟩ := lasts
      have partsTidied : ∀ part ∈ parts, ∀ node ∈ part.nodes, ∀ scalar ∈ node.scalars,
          scalar.tidy = true := tidied.2
      rw [symbolicDuration]
      apply sum_of_durations_known
      clear tidied
      induction each with
      | nil => exact List.Forall₂.nil
      | cons partLasts _ restIh =>
          exact List.Forall₂.cons (ih _ (by simp) _ (partsTidied _ (by simp)) partLasts)
            (restIh (fun part member => ih part (by simp [member]))
              fun part member => partsTidied part (by simp [member]))
  | negative inner ih
  | scale _ inner ih
  | record _ inner _ ih
  | sample inner _ _ ih
  | smooth inner _ _ ih
  | aligned inner _ _ ih =>
      rw [each_node_iff] at tidied
      exact ih length (tidied.2 inner (by simp [children])) lasts

end Analog.Waveform
