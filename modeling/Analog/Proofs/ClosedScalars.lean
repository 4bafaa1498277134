import Analog.Proofs.CanonicalNumbers
import Analog.Proofs.RememberedForms

/-!
# Scalars without variables are folded

A scalar without variables that has a value comes down to this value, as a literal or an assigned
variable. The rules try to fold numbers before they drop a neutral operand, so a quotient by one is
rounded here as it is in an evaluation.
-/

set_option autoImplicit false

namespace Analog.Canonical

open Scalar

variable {bindings : ScalarBindings}

theorem quotient_folds (subject : Unit → String) {left right : Scalar}
    {first second number : Decimal} (leftFound : left.value? = some first)
    (rightFound : right.value? = some second) (divided : first.div? second = some number) :
    quotient subject left right = .ok (.literal number) := by
  have notZero : right.isZero = false := by
    apply Bool.eq_false_iff.2
    intro zero
    rw [isZero, rightFound, Option.any_some, Decimal.is_zero_iff] at zero
    rw [zero, Decimal.div_by_zero] at divided
    cases divided
  unfold quotient
  rw [notZero, if_neg Bool.false_ne_true, leftFound, rightFound]
  simp only [(Decimal.quotient_ok_iff _ _ _).2 divided, Outcome.ok_bind]
  rfl

theorem slice_folds (subject : Unit → String) {extent : Scalar} {interval : Interval}
    {extentNumber number : Decimal} {start stop : Option Decimal}
    (extentFound : extent.value? = some extentNumber)
    (startFound : boundValue? interval.start = some start)
    (stopFound : boundValue? interval.stop = some stop)
    (length : sliceLength extentNumber start stop = .ok number) :
    ∃ result, slice subject extent interval = .ok result ∧ result.value? = some number := by
  have folded : ∃ result, slice subject extent interval = .ok result := by
    by_cases full : interval.isFull = true
    · exact ⟨extent, by rw [slice, if_pos full]⟩
    · refine ⟨.literal number, ?_⟩
      rw [slice, if_neg full, extentFound, startFound, stopFound]
      simp only [length, Outcome.blame]
      rfl
  obtain ⟨result, made⟩ := folded
  obtain ⟨found, isFound, only⟩ := slice_number extentFound startFound stopFound made
  rw [only number length]
  exact ⟨result, made, isFound⟩

def FoldsTo (given : Scalar) (number : Decimal) : Prop :=
  ∃ form, direct given = .ok form ∧ form.value? = some number

theorem direct_all_folds {operands : List Scalar} {numbers : List Decimal}
    (each : List.Forall₂ FoldsTo operands numbers) :
    ∃ forms, directAll operands = .ok forms ∧ Numbers forms numbers := by
  simp only [direct_all_ok_iff]
  induction each with
  | nil => exact ⟨[], .nil, .nil⟩
  | cons folds _ ih =>
      obtain ⟨form, made, found⟩ := folds
      obtain ⟨forms, allMade, allFound⟩ := ih
      exact ⟨form :: forms, .cons made allMade, .cons found allFound⟩

theorem direct_bound_folds {bound : Option Scalar} {number : Option Decimal}
    (folds : Option.Rel FoldsTo bound number) :
    ∃ form, directBound bound = .ok form ∧ boundValue? form = some number := by
  cases folds with
  | none => exact ⟨none, rfl, rfl⟩
  | some folds =>
      obtain ⟨form, made, found⟩ := folds
      refine ⟨some form, (direct_bound_ok_iff _ _).2 (.some made), ?_⟩
      rw [boundValue?, found]
      rfl

/-- Operands of known values fold to these, if each operand does. -/
theorem operands_fold {operands : List Scalar} {numbers : List Decimal}
    (each : ∀ operand ∈ operands, ∀ number, operand.eval bindings = .ok number →
      FoldsTo operand number)
    (evaluate : evalAll bindings operands = .ok numbers) :
    List.Forall₂ FoldsTo operands numbers :=
  Outcome.related_of_mem ((eval_all_ok_iff _ _).1 evaluate) fun operand member number =>
    each operand member number

theorem bound_folds {bound : Option Scalar} {number : Option Decimal}
    (each : ∀ given ∈ bound, ∀ value, given.eval bindings = .ok value → FoldsTo given value)
    (evaluates : evalBound bindings bound = .ok number) : Option.Rel FoldsTo bound number := by
  have related := (eval_bound_ok_iff _ _).1 evaluates
  cases related with
  | none => exact .none
  | some valueOk => exact .some (each _ rfl _ valueOk)

theorem direct_folds (given : Scalar) (fixed : given.Fixed) (value : Decimal)
    (evaluates : given.eval bindings = .ok value) : FoldsTo given value := by
  induction given using Scalar.parts_induction generalizing value with
  | literal number => exact ⟨_, rfl, congrArg some (Except.ok.inj evaluates)⟩
  | named name => exact absurd fixed (not_fixed_variable name)
  | assigned name number => exact ⟨_, rfl, congrArg some (Except.ok.inj evaluates)⟩
  | negative operand ih =>
      obtain ⟨inner, innerOk, rfl⟩ := (eval_negative_ok_iff _ _).1 evaluates
      obtain ⟨form, made, found⟩ := ih ((fixed_negative_iff _).1 fixed) inner innerOk
      exact ⟨negative form, by rw [direct, made]; rfl, negative_number found⟩
  | add left right leftIh rightIh =>
      obtain ⟨leftFixed, rightFixed⟩ := (fixed_add_iff _ _).1 fixed
      obtain ⟨first, second, firstOk, secondOk, rfl⟩ := (eval_add_ok_iff _ _ _).1 evaluates
      obtain ⟨left', leftMade, leftFound⟩ := leftIh leftFixed first firstOk
      obtain ⟨right', rightMade, rightFound⟩ := rightIh rightFixed second secondOk
      exact ⟨sum left' right', by rw [direct, leftMade, rightMade]; rfl,
        sum_number leftFound rightFound⟩
  | mul left right leftIh rightIh =>
      obtain ⟨leftFixed, rightFixed⟩ := (fixed_mul_iff _ _).1 fixed
      obtain ⟨first, second, firstOk, secondOk, rfl⟩ := (eval_mul_ok_iff _ _ _).1 evaluates
      obtain ⟨left', leftMade, leftFound⟩ := leftIh leftFixed first firstOk
      obtain ⟨right', rightMade, rightFound⟩ := rightIh rightFixed second secondOk
      exact ⟨product left' right', by rw [direct, leftMade, rightMade]; rfl,
        product_number leftFound rightFound⟩
  | div left right leftIh rightIh =>
      obtain ⟨leftFixed, rightFixed⟩ := (fixed_div_iff _ _).1 fixed
      obtain ⟨first, second, firstOk, secondOk, divided⟩ := (eval_div_ok_iff _ _ _).1 evaluates
      obtain ⟨left', leftMade, leftFound⟩ := leftIh leftFixed first firstOk
      obtain ⟨right', rightMade, rightFound⟩ := rightIh rightFixed second secondOk
      -- Numbers are divided before a divisor of one is dropped, so this quotient is rounded too.
      refine ⟨.literal value, ?_, rfl⟩
      rw [direct, leftMade, rightMade, Outcome.ok_bind, Outcome.ok_bind]
      exact quotient_folds _ leftFound rightFound divided
  | min operands ih =>
      obtain ⟨_, operandsFixed⟩ := (fixed_min_iff _).1 fixed
      rw [eval_min_ok_iff, chosen_iff_fold choice_min] at evaluates
      obtain ⟨first, rest, evaluate, rfl⟩ := evaluates
      obtain ⟨forms, made, found⟩ := direct_all_folds (operands_fold
        (fun operand member => ih operand member (operandsFixed operand member)) evaluate)
      refine ⟨.literal (rest.foldl Min.min first), ?_, rfl⟩
      rw [direct, made, Outcome.ok_bind]
      exact minimum_folds _ found
  | max operands ih =>
      obtain ⟨_, operandsFixed⟩ := (fixed_max_iff _).1 fixed
      rw [eval_max_ok_iff, chosen_iff_fold choice_max] at evaluates
      obtain ⟨first, rest, evaluate, rfl⟩ := evaluates
      obtain ⟨forms, made, found⟩ := direct_all_folds (operands_fold
        (fun operand member => ih operand member (operandsFixed operand member)) evaluate)
      refine ⟨.literal (rest.foldl Max.max first), ?_, rfl⟩
      rw [direct, made, Outcome.ok_bind]
      exact maximum_folds _ found
  | slice extent start stop extentIh startIh stopIh =>
      obtain ⟨extentFixed, startFixed, stopFixed⟩ := (fixed_slice_iff _ _ _).1 fixed
      obtain ⟨extentValue, startValue, stopValue, extentOk, startOk, stopOk, length⟩ :=
        (eval_slice_ok_iff _ _ _ _).1 evaluates
      obtain ⟨extent', extentMade, extentFound⟩ := extentIh extentFixed extentValue extentOk
      obtain ⟨start', startMade, startFound⟩ := direct_bound_folds (bound_folds
        (fun given member => startIh given member (startFixed given member)) startOk)
      obtain ⟨stop', stopMade, stopFound⟩ := direct_bound_folds (bound_folds
        (fun given member => stopIh given member (stopFixed given member)) stopOk)
      rw [FoldsTo, direct, extentMade, startMade, stopMade, Outcome.ok_bind, Outcome.ok_bind,
        Outcome.ok_bind]
      exact slice_folds _ extentFound startFound stopFound length

theorem value_some_iff (scalar : Scalar) (value : Decimal) :
    scalar.value? = some value ↔ scalar = .literal value ∨ ∃ name, scalar = .assigned name value := by
  cases scalar <;> simp [value?]

/-- A scalar without variables that has a value has a canonical form, which is a literal or an
assigned variable of this value. -/
theorem canonical_fixed_scalar_is_value (bindings : ScalarBindings) (given : Scalar)
    (value : Decimal) (fixed : given.Fixed) (evaluates : given.eval bindings = .ok value) :
    ∃ result, afresh (scalar given) = .ok result ∧
      (result = .literal value ∨ ∃ name, result = .assigned name value) := by
  obtain ⟨form, made, found⟩ := direct_folds given fixed value evaluates
  -- The memory may answer with another form, which equals the direct one and so has its value.
  obtain ⟨result, ran, alike⟩ := (afresh_iff_direct fixed.tidied).1 form made
  have resultFound : result.value? = some value := alike.value.trans found
  exact ⟨result, ran, (value_some_iff result value).1 resultFound⟩

/-- The smaller of a number of 17 digits over one and a slice of a variable that has a value. -/
def roundedOrSliced : Scalar :=
  .min [.div (.literal (.ofScaled 12345678901234567 17)) (.literal 1),
    .slice (.assigned "x" 2) (some (.literal 1)) none]

theorem canonical_rounded_or_sliced :
    roundedOrSliced.Fixed ∧
      roundedOrSliced.eval ⟨[]⟩ = .ok (.ofScaled 1234567890123457 16) ∧
      ∃ result, afresh (scalar roundedOrSliced) = .ok result ∧
        (result = .literal (.ofScaled 1234567890123457 16) ∨
          ∃ name, result = .assigned name (.ofScaled 1234567890123457 16)) :=
  ⟨⟨rfl, rfl⟩, rfl, canonical_fixed_scalar_is_value ⟨[]⟩ roundedOrSliced _ ⟨rfl, rfl⟩ rfl⟩

end Analog.Canonical
