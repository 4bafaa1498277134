import Analog.Proofs.DecimalRing
import Analog.Proofs.ScalarEquality

/-!
# Related scalars

Two scalars are related if they are trees of the same shape with the same numbers and names, where
the operands of a minimum or maximum are taken as a set. For tidy scalars this is equality: two
sets of different operands that cover each other have the same size, so it is enough to go through
one of them.
-/

set_option autoImplicit false

namespace Analog.Scalar

/-- The recursive relation of equal scalars. Numbers are related by their values, operands of
minima and maxima as sets. -/
def Related : Scalar → Scalar → Prop
  | .literal value, .literal other => value.toRat = other.toRat
  | .variable name, .variable other => name = other
  | .assigned name value, .assigned other otherValue =>
    name = other ∧ value.toRat = otherValue.toRat
  | .negative operand, .negative other => Related operand other
  | .add left right, .add first second => Related left first ∧ Related right second
  | .mul left right, .mul first second => Related left first ∧ Related right second
  | .div left right, .div first second => Related left first ∧ Related right second
  | .min operands, .min others | .max operands, .max others =>
    (∀ operand, (_ : operand ∈ operands) → ∃ other ∈ others, Related operand other) ∧
      ∀ other ∈ others, ∃ operand, ∃ _ : operand ∈ operands, Related operand other
  | .slice extent start stop, .slice other otherStart otherStop =>
    Related extent other ∧
      (start.isSome = otherStart.isSome ∧
        ∀ bound, (_ : start = some bound) → ∀ given ∈ otherStart, Related bound given) ∧
      (stop.isSome = otherStop.isSome ∧
        ∀ bound, (_ : stop = some bound) → ∀ given ∈ otherStop, Related bound given)
  | _, _ => False
  termination_by scalar => scalar

section Inversion

variable (scalar : Scalar)

theorem literal_related_iff (value : Decimal) :
    (literal value).Related scalar ↔ literal value = scalar := by
  rw [Related.eq_def]
  cases scalar <;> simp [Decimal.to_rat_injective.eq_iff]

theorem variable_related_iff (name : String) :
    (Scalar.variable name).Related scalar ↔ Scalar.variable name = scalar := by
  rw [Related.eq_def]
  cases scalar <;> simp

theorem assigned_related_iff (name : String) (value : Decimal) :
    (assigned name value).Related scalar ↔ assigned name value = scalar := by
  rw [Related.eq_def]
  cases scalar <;> simp [Decimal.to_rat_injective.eq_iff]

theorem negative_related_iff (operand : Scalar) :
    (negative operand).Related scalar ↔
      ∃ other, scalar = negative other ∧ operand.Related other := by
  rw [Related.eq_def]
  cases scalar <;> simp

theorem add_related_iff (left right : Scalar) :
    (add left right).Related scalar ↔
      ∃ first second, scalar = add first second ∧ left.Related first ∧ right.Related second := by
  rw [Related.eq_def]
  cases scalar <;> simp

theorem mul_related_iff (left right : Scalar) :
    (mul left right).Related scalar ↔
      ∃ first second, scalar = mul first second ∧ left.Related first ∧ right.Related second := by
  rw [Related.eq_def]
  cases scalar <;> simp

theorem div_related_iff (left right : Scalar) :
    (div left right).Related scalar ↔
      ∃ first second, scalar = div first second ∧ left.Related first ∧ right.Related second := by
  rw [Related.eq_def]
  cases scalar <;> simp

theorem min_related_iff (operands : List Scalar) :
    (min operands).Related scalar ↔
      ∃ others, scalar = min others ∧
        (∀ operand ∈ operands, ∃ other ∈ others, operand.Related other) ∧
        ∀ other ∈ others, ∃ operand ∈ operands, operand.Related other := by
  rw [Related.eq_def]
  cases scalar <;> simp

theorem max_related_iff (operands : List Scalar) :
    (max operands).Related scalar ↔
      ∃ others, scalar = max others ∧
        (∀ operand ∈ operands, ∃ other ∈ others, operand.Related other) ∧
        ∀ other ∈ others, ∃ operand ∈ operands, operand.Related other := by
  rw [Related.eq_def]
  cases scalar <;> simp

theorem slice_related_iff (extent : Scalar) (start stop : Option Scalar) :
    (slice extent start stop).Related scalar ↔
      ∃ otherExtent otherStart otherStop, scalar = slice otherExtent otherStart otherStop ∧
        Option.Rel Related start otherStart ∧ Option.Rel Related stop otherStop ∧
        extent.Related otherExtent := by
  have bounds : ∀ bound other : Option Scalar, Option.Rel Related bound other ↔
      bound.isSome = other.isSome ∧
        ∀ given, bound = some given → ∀ second ∈ other, given.Related second := by
    intro bound other
    cases bound <;> cases other <;> simp
  rw [Related.eq_def]
  cases scalar <;> simp [bounds]
  tauto

end Inversion

/-- Different operands that all have an equal in a list are no more than the list has. -/
theorem length_le_of_within {operands others : List Scalar} (different : distinct operands = true)
    (tidied : ∀ operand ∈ operands, operand.tidy = true)
    (within : ∀ operand ∈ operands, ∃ other ∈ others, operand.same other = true) :
    operands.length ≤ others.length := by
  obtain ⟨matched, rest, perm, each⟩ := exists_part_matching_of_distinct operands others
    ((distinct_iff _).1 different)
    (fun operand member other => same_symm operand other (tidied operand member)) within
  have sizes := perm.length_eq
  rw [List.length_append, ← each.length_eq] at sizes
  omega

/-- Two sets of different operands cover each other if they have one size and the one is within
the other. -/
theorem covered_iff_same_length {operands others : List Scalar}
    (different : distinct operands = true) (otherDifferent : distinct others = true)
    (tidied : ∀ operand ∈ operands, operand.tidy = true)
    (otherTidied : ∀ other ∈ others, other.tidy = true)
    (within : ∀ operand ∈ operands, ∃ other ∈ others, operand.same other = true) :
    (∀ other ∈ others, ∃ operand ∈ operands, operand.same other = true) ↔
      operands.length = others.length := by
  have symmetric := fun operand member other => same_symm operand other (tidied operand member)
  constructor
  · intro covered
    have back : ∀ other ∈ others, ∃ operand ∈ operands, other.same operand = true := by
      intro other member
      obtain ⟨operand, operandMember, equal⟩ := covered other member
      exact ⟨operand, operandMember, symmetric operand operandMember other equal⟩
    exact le_antisymm (length_le_of_within different tidied within)
      (length_le_of_within otherDifferent otherTidied back)
  · exact fun sameLength => within_of_distinct operands others ((distinct_iff _).1 different)
      symmetric sameLength within

/-- Sets of operands are related if they have one size and the one is within the other. -/
theorem related_sets_iff {operands others : List Scalar}
    (ih : ∀ operand ∈ operands, ∀ other, operand.tidy = true → other.tidy = true →
      (operand.Related other ↔ operand.same other = true))
    (tidied : distinct operands = true ∧ ∀ operand ∈ operands, operand.tidy = true)
    (otherTidied : distinct others = true ∧ ∀ other ∈ others, other.tidy = true) :
    ((∀ operand ∈ operands, ∃ other ∈ others, operand.Related other) ∧
        ∀ other ∈ others, ∃ operand ∈ operands, operand.Related other) ↔
      operands.length = others.length ∧
        ∀ operand ∈ operands, ∃ other ∈ others, operand.same other = true := by
  have relatedIff : ∀ operand ∈ operands, ∀ other ∈ others,
      (operand.Related other ↔ operand.same other = true) := fun operand member other otherMember =>
    ih operand member other (tidied.2 operand member) (otherTidied.2 other otherMember)
  have withinIff : (∀ operand ∈ operands, ∃ other ∈ others, operand.Related other) ↔
      ∀ operand ∈ operands, ∃ other ∈ others, operand.same other = true :=
    forall₂_congr fun operand member => exists_congr fun other =>
      and_congr_right fun otherMember => relatedIff operand member other otherMember
  have coveredIff : (∀ other ∈ others, ∃ operand ∈ operands, operand.Related other) ↔
      ∀ other ∈ others, ∃ operand ∈ operands, operand.same other = true :=
    forall₂_congr fun other otherMember => exists_congr fun operand =>
      and_congr_right fun member => relatedIff operand member other otherMember
  rw [withinIff, coveredIff, and_comm]
  exact and_congr_left fun within =>
    covered_iff_same_length tidied.1 otherTidied.1 tidied.2 otherTidied.2 within

theorem related_bounds_iff {bound other : Option Scalar}
    (ih : ∀ given ∈ bound, ∀ second, given.tidy = true → second.tidy = true →
      (given.Related second ↔ given.same second = true))
    (tidied : tidyBound bound = true) (otherTidied : tidyBound other = true) :
    Option.Rel Related bound other ↔ sameBound bound other = true := by
  rw [same_bound_iff]
  cases bound with
  | none => cases other <;> simp
  | some given =>
      cases other with
      | none => simp
      | some second => simpa using ih given rfl second tidied otherTidied

theorem related_iff_same (first second : Scalar) (tidied : first.tidy = true)
    (otherTidied : second.tidy = true) : first.Related second ↔ first.same second = true := by
  induction first using Scalar.parts_induction generalizing second with
  | literal value => rw [literal_related_iff, literal_same_iff]
  | named name => rw [variable_related_iff, variable_same_iff]
  | assigned name value => rw [assigned_related_iff, assigned_same_iff]
  | negative operand ih =>
      rw [negative_related_iff, negative_same_iff]
      refine exists_congr fun other => and_congr_right ?_
      rintro rfl
      exact ih other tidied otherTidied
  | add left right leftIh rightIh =>
      rw [add_related_iff, add_same_iff]
      refine exists₂_congr fun _ _ => and_congr_right ?_
      rintro rfl
      rw [tidy, Bool.and_eq_true] at tidied otherTidied
      exact and_congr (leftIh _ tidied.1 otherTidied.1) (rightIh _ tidied.2 otherTidied.2)
  | mul left right leftIh rightIh =>
      rw [mul_related_iff, mul_same_iff]
      refine exists₂_congr fun _ _ => and_congr_right ?_
      rintro rfl
      rw [tidy, Bool.and_eq_true] at tidied otherTidied
      exact and_congr (leftIh _ tidied.1 otherTidied.1) (rightIh _ tidied.2 otherTidied.2)
  | div left right leftIh rightIh =>
      rw [div_related_iff, div_same_iff]
      refine exists₂_congr fun _ _ => and_congr_right ?_
      rintro rfl
      rw [tidy, Bool.and_eq_true] at tidied otherTidied
      exact and_congr (leftIh _ tidied.1 otherTidied.1) (rightIh _ tidied.2 otherTidied.2)
  | min operands ih =>
      rw [min_related_iff, min_same_iff]
      refine exists_congr fun others => and_congr_right ?_
      rintro rfl
      rw [tidy, Bool.and_eq_true, tidy_all_iff] at tidied otherTidied
      exact related_sets_iff ih tidied otherTidied
  | max operands ih =>
      rw [max_related_iff, max_same_iff]
      refine exists_congr fun others => and_congr_right ?_
      rintro rfl
      rw [tidy, Bool.and_eq_true, tidy_all_iff] at tidied otherTidied
      exact related_sets_iff ih tidied otherTidied
  | slice extent start stop extentIh startIh stopIh =>
      rw [slice_related_iff, slice_same_iff]
      refine exists_congr fun _ => exists₂_congr fun _ _ => and_congr_right ?_
      rintro rfl
      rw [tidy, Bool.and_eq_true, Bool.and_eq_true] at tidied otherTidied
      obtain ⟨⟨extentTidy, startTidy⟩, stopTidy⟩ := tidied
      obtain ⟨⟨otherExtentTidy, otherStartTidy⟩, otherStopTidy⟩ := otherTidied
      exact and_congr (related_bounds_iff startIh startTidy otherStartTidy)
        (and_congr (related_bounds_iff stopIh stopTidy otherStopTidy)
          (extentIh _ extentTidy otherExtentTidy))

end Analog.Scalar
