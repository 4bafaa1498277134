import Analog.Proofs.RememberedForms

/-!
# Canonical scalars have the same value

A scalar that has a value has a canonical form of the same value, with one exception. A
quotient by one is rounded when it is evaluated, and its canonical form is the dividend. So
the value may change, or be lost in what is made of it, where a quotient loses its divisor
and the dividend has more digits than a quotient keeps.
-/

set_option autoImplicit false

namespace Analog.Canonical

open Scalar

/-- Whether the canonical form of a quotient is that of its dividend: the divisor comes down to
one and the dividend to something that is not a number. -/
def LosesDivisor (left right : Scalar) : Prop :=
  ∃ left' right', afresh (scalar left) = .ok left' ∧ afresh (scalar right) = .ok right' ∧
    left'.value? = none ∧ right'.isOne = true

/-- Whether no digit is lost in a quotient that loses its divisor. -/
def KeepsDigits (bindings : ScalarBindings) : Scalar → Prop
  | .div left right => LosesDivisor left right → ∀ value, left.eval bindings = .ok value →
    value.div? 1 = some value
  | _ => True

variable {bindings : ScalarBindings}

theorem loses_divisor_of_direct {left right left' right' : Scalar} (leftTidy : left.tidy = true)
    (rightTidy : right.tidy = true) (leftMade : direct left = .ok left')
    (rightMade : direct right = .ok right') (notNumber : left'.value? = none)
    (one : right'.isOne = true) : LosesDivisor left right := by
  obtain ⟨leftResult, leftRan, leftAlike⟩ := (afresh_iff_direct leftTidy).1 left' leftMade
  obtain ⟨rightResult, rightRan, rightAlike⟩ := (afresh_iff_direct rightTidy).1 right' rightMade
  exact ⟨leftResult, rightResult, leftRan, rightRan, leftAlike.value ▸ notNumber,
    rightAlike.isOne ▸ one⟩

/-- Operands of a choice have direct forms among which the choice is the same. -/
theorem direct_chosen {before : Decimal → Decimal → Prop} {operands : List Scalar} {value : Decimal}
    (tidied : ∀ operand ∈ operands, operand.tidy = true)
    (each : ∀ operand ∈ operands, ∀ number, Known bindings operand number →
      ∃ form, direct operand = .ok form ∧ Known bindings form number)
    (chosen : Chosen before bindings operands value) :
    ∃ forms, directAll operands = .ok forms ∧
      (∀ form ∈ forms, ∃ number, Known bindings form number) ∧
      Chosen before bindings forms value := by
  have exist : ∀ operand ∈ operands, ∃ form, direct operand = .ok form := by
    intro operand member
    obtain ⟨number, numberOk, _⟩ := chosen.all operand member
    obtain ⟨form, made, _⟩ := each operand member number ⟨tidied operand member, numberOk⟩
    exact ⟨form, made⟩
  obtain ⟨forms, made⟩ := Outcome.related_of_each exist
  have keeps : ∀ operand ∈ operands, ∀ form, direct operand = .ok form → ∀ number,
      operand.eval bindings = .ok number → Known bindings form number := by
    intro operand member form formMade number numberOk
    obtain ⟨found, foundMade, known⟩ := each operand member number ⟨tidied operand member, numberOk⟩
    rw [formMade, Except.ok.injEq] at foundMade
    exact foundMade ▸ known
  refine ⟨forms, (direct_all_ok_iff _ _).2 made, fun form member => ?_, ?_⟩
  · obtain ⟨operand, operandMember, formMade⟩ := Outcome.source_of_mem made member
    obtain ⟨number, numberOk, _⟩ := chosen.all operand operandMember
    exact ⟨number, keeps operand operandMember form formMade number numberOk⟩
  · exact chosen_of_related (Outcome.related_of_mem made fun operand member form formMade number
      numberOk => (keeps operand member form formMade number numberOk).evaluates) chosen

theorem direct_bound_known {bound : Option Scalar} {number : Option Decimal}
    (each : ∀ given ∈ bound, ∀ value, Known bindings given value →
      ∃ form, direct given = .ok form ∧ Known bindings form value)
    (known : BoundKnown bindings bound number) :
    ∃ form, directBound bound = .ok form ∧ BoundKnown bindings form number := by
  cases known with
  | none => exact ⟨none, rfl, .none⟩
  | some boundKnown =>
      obtain ⟨form, made, formKnown⟩ := each _ rfl _ boundKnown
      exact ⟨some form, (direct_bound_ok_iff _ _).2 (.some made), .some formKnown⟩

theorem direct_known (given : Scalar) (value : Decimal) (known : Known bindings given value)
    (digits : ∀ node ∈ given.nodes, KeepsDigits bindings node) :
    ∃ form, direct given = .ok form ∧ Known bindings form value := by
  induction given using Scalar.parts_induction generalizing value with
  | literal number => exact ⟨_, rfl, known⟩
  | named name => exact ⟨_, rfl, known⟩
  | assigned name number => exact ⟨_, rfl, known⟩
  | negative operand ih =>
      obtain ⟨_, operandDigits⟩ := (each_node_iff _ _).1 digits
      obtain ⟨form, made, formKnown⟩ :=
        ih _ ((negative_known_iff _ _).1 known) (operandDigits operand (by simp [children]))
      have resultKnown := negative_known formKnown
      rw [neg_neg] at resultKnown
      exact ⟨negative form, by rw [direct, made]; rfl, resultKnown⟩
  | add left right leftIh rightIh =>
      obtain ⟨_, childDigits⟩ := (each_node_iff _ _).1 digits
      obtain ⟨first, second, firstKnown, secondKnown, rfl⟩ := (add_known_iff _ _ _).1 known
      obtain ⟨left', leftMade, leftKnown⟩ :=
        leftIh first firstKnown (childDigits left (by simp [children]))
      obtain ⟨right', rightMade, rightKnown⟩ :=
        rightIh second secondKnown (childDigits right (by simp [children]))
      exact ⟨sum left' right', by rw [direct, leftMade, rightMade]; rfl,
        sum_known leftKnown rightKnown⟩
  | mul left right leftIh rightIh =>
      obtain ⟨_, childDigits⟩ := (each_node_iff _ _).1 digits
      obtain ⟨first, second, firstKnown, secondKnown, rfl⟩ := (mul_known_iff _ _ _).1 known
      obtain ⟨left', leftMade, leftKnown⟩ :=
        leftIh first firstKnown (childDigits left (by simp [children]))
      obtain ⟨right', rightMade, rightKnown⟩ :=
        rightIh second secondKnown (childDigits right (by simp [children]))
      exact ⟨product left' right', by rw [direct, leftMade, rightMade]; rfl,
        product_known leftKnown rightKnown⟩
  | div left right leftIh rightIh =>
      obtain ⟨ownDigits, childDigits⟩ := (each_node_iff _ _).1 digits
      obtain ⟨first, second, firstKnown, secondKnown, divided⟩ := (div_known_iff _ _ _).1 known
      obtain ⟨left', leftMade, leftKnown⟩ :=
        leftIh first firstKnown (childDigits left (by simp [children]))
      obtain ⟨right', rightMade, rightKnown⟩ :=
        rightIh second secondKnown (childDigits right (by simp [children]))
      rw [direct, leftMade, rightMade, Outcome.ok_bind, Outcome.ok_bind]
      refine quotient_known _ leftKnown rightKnown divided fun notNumber one => ?_
      have kept := ownDigits (loses_divisor_of_direct firstKnown.tidied secondKnown.tidied leftMade
        rightMade notNumber one) first firstKnown.evaluates
      rw [rightKnown.one one, kept, Option.some.injEq] at divided
      exact divided.symm
  | min operands ih =>
      obtain ⟨_, childDigits⟩ := (each_node_iff _ _).1 digits
      obtain ⟨_, tidied, chosen⟩ := (min_known_iff _ _).1 known
      obtain ⟨forms, made, each, formsChosen⟩ := direct_chosen tidied
        (fun operand member number operandKnown =>
          ih operand member number operandKnown (childDigits operand member)) chosen
      rw [direct, made, Outcome.ok_bind]
      exact minimum_known _ each formsChosen
  | max operands ih =>
      obtain ⟨_, childDigits⟩ := (each_node_iff _ _).1 digits
      obtain ⟨_, tidied, chosen⟩ := (max_known_iff _ _).1 known
      obtain ⟨forms, made, each, formsChosen⟩ := direct_chosen tidied
        (fun operand member number operandKnown =>
          ih operand member number operandKnown (childDigits operand member)) chosen
      rw [direct, made, Outcome.ok_bind]
      exact maximum_known _ each formsChosen
  | slice extent start stop extentIh startIh stopIh =>
      obtain ⟨_, childDigits⟩ := (each_node_iff _ _).1 digits
      obtain ⟨extentValue, startValue, stopValue, extentKnown, startKnown, stopKnown, length⟩ :=
        (slice_known_iff _ _ _ _).1 known
      obtain ⟨extent', extentMade, extentKnown'⟩ :=
        extentIh extentValue extentKnown (childDigits extent (by simp [children]))
      obtain ⟨start', startMade, startKnown'⟩ := direct_bound_known (fun bound member number
        boundKnown => startIh bound member number boundKnown
          (childDigits bound (by simp_all [children]))) startKnown
      obtain ⟨stop', stopMade, stopKnown'⟩ := direct_bound_known (fun bound member number
        boundKnown => stopIh bound member number boundKnown
          (childDigits bound (by simp_all [children]))) stopKnown
      rw [direct, extentMade, startMade, stopMade, Outcome.ok_bind, Outcome.ok_bind, Outcome.ok_bind]
      exact slice_known _ extentKnown' startKnown' stopKnown' length

/-- A scalar that has a value has a canonical form, which has the same value, unless digits are
lost in a quotient that loses its divisor. -/
theorem canonical_scalar_keeps_value (given : Scalar) (value : Decimal)
    (tidied : given.tidy = true) (evaluates : given.eval bindings = .ok value)
    (digits : ∀ node ∈ given.nodes, KeepsDigits bindings node) :
    ∃ result, afresh (scalar given) = .ok result ∧ result.eval bindings = .ok value := by
  obtain ⟨form, made, known⟩ := direct_known given value ⟨tidied, evaluates⟩ digits
  obtain ⟨result, ran, alike⟩ := (afresh_iff_direct tidied).1 form made
  exact ⟨result, ran,
    eval_of_same form result value known.tidied alike.symm.equal known.evaluates⟩

def overOne : Scalar :=
  .sub (.div (.variable "x") (.literal 1)) (.div (.literal 1) (.variable "x"))

theorem canonical_over_one_keeps_value :
    overOne.tidy = true ∧
      overOne.eval ⟨[("x", .ofScaled 25 1)]⟩ = .ok (.ofScaled 21 1) ∧
      ∃ result, afresh (scalar overOne) = .ok result ∧
        result.eval ⟨[("x", .ofScaled 25 1)]⟩ = .ok (.ofScaled 21 1) := by
  refine ⟨rfl, rfl, canonical_scalar_keeps_value overOne (.ofScaled 21 1) rfl rfl ?_⟩
  intro node member
  simp only [overOne, sub, nodes, List.mem_cons, List.mem_append, List.not_mem_nil, or_false] at member
  rcases member with rfl | (rfl | rfl | rfl) | rfl | rfl | rfl | rfl
  case inr.inl.inl =>
      rintro _ value valueOk
      cases valueOk
      rfl
  case inr.inr.inr.inl =>
      rintro _ value valueOk
      cases valueOk
      rfl
  all_goals trivial

/-- One over the difference of a number over one and the number. -/
def overRounding : Scalar :=
  .div (.literal 1) (.sub (.div (.variable "x") (.literal 1)) (.variable "x"))

/-- A number with more digits than a quotient keeps: the difference is not zero when it is
evaluated, and zero in the canonical form. -/
theorem over_rounding_not_canonical :
    overRounding.eval ⟨[("x", .ofScaled 12345678901234567 17)]⟩ =
        .ok (.ofScaled 333333333333333333333333333333333 16) ∧
      ∀ result, afresh (scalar overRounding) ≠ .ok result := by
  refine ⟨rfl, fun result made => ?_⟩
  have fails : direct overRounding = .error (.divisionByZero overRounding.text) := rfl
  rw [(afresh_iff_direct rfl).2 _ fails] at made
  cases made

end Analog.Canonical
