import Analog.Canonical.Scalar
import Analog.Proofs.Durations

/-!
# Rules for scalars keep values

Each rule of simplification turns operands of known values into a scalar of the value of
the whole. Only one rule can lose digits: a quotient by one is rounded, and the rule that
drops the divisor is not. So it is asked of the quotients that lose their divisor to be exact.
-/

set_option autoImplicit false

namespace Analog.Scalar

variable {bindings : ScalarBindings}

theorem literal_known (value : Decimal) : Known bindings (literal value) value :=
  ⟨rfl, rfl⟩

theorem Known.of_same {scalar other : Scalar} {first second : Decimal}
    (firstKnown : Known bindings scalar first) (secondKnown : Known bindings other second)
    (equal : scalar.same other = true) : first = second := by
  have same := eval_of_same scalar other first firstKnown.tidied equal firstKnown.evaluates
  rwa [secondKnown.evaluates, Except.ok.injEq, eq_comm] at same

theorem eval_of_value {operand : Scalar} {known : Decimal} (found : operand.value? = some known) :
    operand.eval bindings = .ok known := by
  cases operand <;> simp_all [value?]

theorem Known.number {scalar : Scalar} {value number : Decimal} (known : Known bindings scalar value)
    (found : scalar.value? = some number) : number = value := by
  have same := (eval_of_value found).symm.trans known.evaluates
  rwa [Except.ok.injEq] at same

theorem Known.zero {scalar : Scalar} {value : Decimal} (known : Known bindings scalar value)
    (zero : scalar.isZero = true) : value = 0 := by
  unfold isZero at zero
  obtain ⟨number, found, isZero⟩ := (Option.any_eq_true _ _).1 zero
  rw [← known.number found]
  exact (Decimal.is_zero_iff number).1 isZero

theorem Known.one {scalar : Scalar} {value : Decimal} (known : Known bindings scalar value)
    (one : scalar.isOne = true) : value = 1 := by
  unfold isOne at one
  obtain ⟨number, found, isOne⟩ := (Option.any_eq_true _ _).1 one
  rw [← known.number found]
  exact beq_iff_eq.1 isOne

theorem negative_known_iff (operand : Scalar) (value : Decimal) :
    Known bindings (negative operand) value ↔ Known bindings operand (-value) := by
  constructor
  · rintro ⟨tidied, evaluates⟩
    obtain ⟨inner, innerOk, rfl⟩ := (eval_negative_ok_iff _ _).1 evaluates
    rw [neg_neg]
    exact ⟨tidied, innerOk⟩
  · rintro ⟨tidied, evaluates⟩
    exact ⟨tidied, (eval_negative_ok_iff _ _).2 ⟨-value, evaluates, (neg_neg value).symm⟩⟩

theorem add_known_iff (left right : Scalar) (value : Decimal) :
    Known bindings (add left right) value ↔
      ∃ first second, Known bindings left first ∧ Known bindings right second ∧
        value = first + second := by
  constructor
  · rintro ⟨tidied, evaluates⟩
    obtain ⟨first, second, firstOk, secondOk, rfl⟩ := (eval_add_ok_iff _ _ _).1 evaluates
    rw [tidy, Bool.and_eq_true] at tidied
    exact ⟨first, second, ⟨tidied.1, firstOk⟩, ⟨tidied.2, secondOk⟩, rfl⟩
  · rintro ⟨first, second, firstKnown, secondKnown, rfl⟩
    exact add_known firstKnown secondKnown

theorem mul_known_iff (left right : Scalar) (value : Decimal) :
    Known bindings (mul left right) value ↔
      ∃ first second, Known bindings left first ∧ Known bindings right second ∧
        value = first * second := by
  constructor
  · rintro ⟨tidied, evaluates⟩
    obtain ⟨first, second, firstOk, secondOk, rfl⟩ := (eval_mul_ok_iff _ _ _).1 evaluates
    rw [tidy, Bool.and_eq_true] at tidied
    exact ⟨first, second, ⟨tidied.1, firstOk⟩, ⟨tidied.2, secondOk⟩, rfl⟩
  · rintro ⟨first, second, firstKnown, secondKnown, rfl⟩
    refine ⟨?_, (eval_mul_ok_iff _ _ _).2
      ⟨first, second, firstKnown.evaluates, secondKnown.evaluates, rfl⟩⟩
    rw [tidy, firstKnown.tidied, secondKnown.tidied]
    rfl

theorem div_known_iff (left right : Scalar) (value : Decimal) :
    Known bindings (div left right) value ↔
      ∃ first second, Known bindings left first ∧ Known bindings right second ∧
        first.div? second = some value := by
  constructor
  · rintro ⟨tidied, evaluates⟩
    obtain ⟨first, second, firstOk, secondOk, divided⟩ := (eval_div_ok_iff _ _ _).1 evaluates
    rw [tidy, Bool.and_eq_true] at tidied
    exact ⟨first, second, ⟨tidied.1, firstOk⟩, ⟨tidied.2, secondOk⟩, divided⟩
  · rintro ⟨first, second, firstKnown, secondKnown, divided⟩
    refine ⟨?_, (eval_div_ok_iff _ _ _).2
      ⟨first, second, firstKnown.evaluates, secondKnown.evaluates, divided⟩⟩
    rw [tidy, firstKnown.tidied, secondKnown.tidied]
    rfl

theorem min_known_iff (operands : List Scalar) (value : Decimal) :
    Known bindings (min operands) value ↔
      distinct operands = true ∧ (∀ operand ∈ operands, operand.tidy = true) ∧
        Chosen (· ≤ ·) bindings operands value := by
  rw [← tidy_all_iff, ← and_assoc, ← Bool.and_eq_true, ← eval_min_ok_iff]
  exact ⟨fun known => ⟨known.tidied, known.evaluates⟩, fun both => ⟨both.1, both.2⟩⟩

theorem max_known_iff (operands : List Scalar) (value : Decimal) :
    Known bindings (max operands) value ↔
      distinct operands = true ∧ (∀ operand ∈ operands, operand.tidy = true) ∧
        Chosen (· ≥ ·) bindings operands value := by
  rw [← tidy_all_iff, ← and_assoc, ← Bool.and_eq_true, ← eval_max_ok_iff]
  exact ⟨fun known => ⟨known.tidied, known.evaluates⟩, fun both => ⟨both.1, both.2⟩⟩

/-- A bound that is missing, or that is tidy and has the given value. -/
def BoundKnown (bindings : ScalarBindings) : Option Scalar → Option Decimal → Prop :=
  Option.Rel (Known bindings)

theorem bound_known_iff (bound : Option Scalar) (number : Option Decimal) :
    BoundKnown bindings bound number ↔
      tidyBound bound = true ∧ evalBound bindings bound = .ok number := by
  rw [eval_bound_ok_iff]
  cases bound with
  | none => cases number <;> simp [BoundKnown, tidyBound]
  | some given =>
      cases number with
      | none => simp [BoundKnown]
      | some value =>
          simp only [BoundKnown, Option.rel_some_some, tidyBound]
          exact ⟨fun known => ⟨known.tidied, known.evaluates⟩, fun both => ⟨both.1, both.2⟩⟩

theorem slice_known_iff (extent : Scalar) (start stop : Option Scalar) (value : Decimal) :
    Known bindings (slice extent start stop) value ↔
      ∃ extentValue startValue stopValue, Known bindings extent extentValue ∧
        BoundKnown bindings start startValue ∧ BoundKnown bindings stop stopValue ∧
        sliceLength extentValue startValue stopValue = .ok value := by
  simp only [bound_known_iff]
  constructor
  · rintro ⟨tidied, evaluates⟩
    obtain ⟨extentValue, startValue, stopValue, extentOk, startOk, stopOk, length⟩ :=
      (eval_slice_ok_iff _ _ _ _).1 evaluates
    rw [tidy, Bool.and_eq_true, Bool.and_eq_true] at tidied
    exact ⟨extentValue, startValue, stopValue, ⟨tidied.1.1, extentOk⟩, ⟨tidied.1.2, startOk⟩,
      ⟨tidied.2, stopOk⟩, length⟩
  · rintro ⟨extentValue, startValue, stopValue, extentKnown, ⟨startTidy, startOk⟩,
      ⟨stopTidy, stopOk⟩, length⟩
    refine ⟨?_, (eval_slice_ok_iff _ _ _ _).2
      ⟨extentValue, startValue, stopValue, extentKnown.evaluates, startOk, stopOk, length⟩⟩
    rw [tidy, extentKnown.tidied, startTidy, stopTidy]
    rfl

end Analog.Scalar

namespace Analog.Canonical

open Scalar

variable {bindings : ScalarBindings}

def NotBothNumbers (left right : Scalar) : Prop :=
  left.value? = none ∨ right.value? = none

theorem not_both_numbers {left right : Scalar}
    (notBoth : ∀ first second, left.value? = some first → right.value? = some second → False) :
    NotBothNumbers left right := by
  unfold NotBothNumbers
  cases leftFound : left.value? with
  | none => exact Or.inl rfl
  | some first =>
      cases rightFound : right.value? with
      | none => exact Or.inr rfl
      | some second => exact (notBoth first second leftFound rightFound).elim

theorem sum_not_both {left right : Scalar} : NotBothNumbers left right →
    sum left right =
      if left.isZero then right
      else if right.isZero then left
      else if isNegationOf right left || isNegationOf left right then Scalar.zero
      else
        match left, right with
        | .negative leftInner, .negative rightInner => negative (sum leftInner rightInner)
        | _, _ => .add left right := by
  intro notBoth
  conv => lhs; unfold sum
  split
  case h_1 leftFound rightFound => simp [NotBothNumbers, leftFound, rightFound] at notBoth
  case h_2 => rfl

theorem quotient_cases {subject : Unit → String} {left right result : Scalar}
    (made : quotient subject left right = .ok result) :
    right.isZero = false ∧
      ((∃ first second number, left.value? = some first ∧ right.value? = some second ∧
          first.div? second = some number ∧ result = .literal number) ∨
        NotBothNumbers left right ∧
          ((right.isOne = true ∧ result = left) ∨
            (right.isOne = false ∧ left.isZero = true ∧ result = Scalar.zero) ∨
            (right.isOne = false ∧ left.isZero = false ∧ result = .div left right))) := by
  unfold quotient at made
  by_cases zero : right.isZero = true
  · rw [if_pos zero] at made
    cases made
  rw [if_neg zero] at made
  refine ⟨Bool.eq_false_iff.2 zero, ?_⟩
  split at made
  case h_1 first second leftFound rightFound =>
      obtain ⟨number, divided, same⟩ := (Outcome.bind_ok_iff _ _ _).1 made
      rw [Outcome.pure_ok_iff] at same
      exact Or.inl ⟨first, second, number, leftFound, rightFound,
        (Decimal.quotient_ok_iff _ _ _).1 divided, same.symm⟩
  case h_2 notBoth =>
      refine Or.inr ⟨not_both_numbers notBoth, ?_⟩
      split_ifs at made with one leftZero <;> cases made
      · exact Or.inl ⟨one, rfl⟩
      · exact Or.inr (Or.inl ⟨Bool.eq_false_iff.2 one, leftZero, rfl⟩)
      · exact Or.inr (Or.inr ⟨Bool.eq_false_iff.2 one, Bool.eq_false_iff.2 leftZero, rfl⟩)

/-- What is made of members is the only one of them, or built of several different ones. -/
theorem of_members_cases {build : List Scalar → Scalar} {members : List Scalar} {result : Scalar}
    (made : ofMembers build members = .ok result) :
    Scalar.unique members = [result] ∨
      2 ≤ (Scalar.unique members).length ∧ result = build (Scalar.unique members) := by
  unfold ofMembers at made
  split at made <;> cases made
  case h_2 single => exact Or.inl single
  case h_3 notNone notSingle =>
      refine Or.inr ⟨?_, rfl⟩
      match found : Scalar.unique members with
      | [] => exact (notNone found).elim
      | [member] => exact (notSingle member found).elim
      | _ :: _ :: _ => simp

theorem slice_cases {subject : Unit → String} {extent result : Scalar} {interval : Interval}
    (made : slice subject extent interval = .ok result) :
    (interval.isFull = true ∧ result = extent) ∨
      interval.isFull = false ∧
        ((∃ extentValue start stop number, extent.value? = some extentValue ∧
            boundValue? interval.start = some start ∧ boundValue? interval.stop = some stop ∧
            sliceLength extentValue start stop = .ok number ∧ result = .literal number) ∨
          (extent.value? = none ∨ boundValue? interval.start = none ∨
              boundValue? interval.stop = none) ∧
            result = .slice extent interval.start interval.stop) := by
  unfold slice at made
  by_cases full : interval.isFull = true
  · rw [if_pos full] at made
    cases made
    exact Or.inl ⟨full, rfl⟩
  rw [if_neg full] at made
  refine Or.inr ⟨Bool.eq_false_iff.2 full, ?_⟩
  split at made
  case h_1 extentValue start stop extentFound startFound stopFound =>
      obtain ⟨number, length, same⟩ := (Outcome.bind_ok_iff _ _ _).1 made
      rw [Outcome.pure_ok_iff] at same
      exact Or.inl ⟨extentValue, start, stop, number, extentFound, startFound, stopFound,
        (Outcome.blame_ok_iff _ _ _).1 length, same.symm⟩
  case h_2 notAll =>
      cases made
      refine Or.inr ⟨?_, rfl⟩
      cases extentFound : extent.value? with
      | none => exact Or.inl rfl
      | some extentValue =>
          cases startFound : boundValue? interval.start with
          | none => exact Or.inr (Or.inl rfl)
          | some start =>
              cases stopFound : boundValue? interval.stop with
              | none => exact Or.inr (Or.inr rfl)
              | some stop => exact (notAll _ _ _ extentFound startFound stopFound).elim

/-- The one number that all numbers among some operands come down to. -/
def foldedNumber (combine : Decimal → Decimal → Decimal) (operands : List Scalar) :
    Option Decimal :=
  match operands.filterMap Scalar.value? with
  | [] => none
  | first :: rest => some (rest.foldl combine first)

theorem fold_constants_eq (combine : Decimal → Decimal → Decimal) (operands : List Scalar) :
    foldConstants combine operands = (operands.filter fun operand => operand.value?.isNone) ++
      ((foldedNumber combine operands).map literal).toList := by
  unfold foldConstants foldedNumber
  dsimp only
  split <;> simp [*]

/-- What folding leaves: operands that were there, and one number. -/
theorem mem_fold_constants {combine : Decimal → Decimal → Decimal} {operands : List Scalar}
    {operand : Scalar} (member : operand ∈ foldConstants combine operands) :
    operand ∈ operands ∨ ∃ number, operand = .literal number := by
  rw [fold_constants_eq, List.mem_append] at member
  rcases member with kept | last
  · exact Or.inl (List.mem_filter.1 kept).1
  · rw [Option.mem_toList, Option.map_eq_some_iff] at last
    obtain ⟨number, _, rfl⟩ := last
    exact Or.inr ⟨number, rfl⟩

theorem splice_minimum_cases (operand : Scalar) :
    spliceMinimum operand = [operand] ∨
      ∃ inner, operand = .min inner ∧ spliceMinimum operand = inner := by
  unfold spliceMinimum
  split
  · exact Or.inr ⟨_, rfl, rfl⟩
  · exact Or.inl rfl

theorem splice_maximum_cases (operand : Scalar) :
    spliceMaximum operand = [operand] ∨
      ∃ inner, operand = .max inner ∧ spliceMaximum operand = inner := by
  unfold spliceMaximum
  split
  · exact Or.inr ⟨_, rfl, rfl⟩
  · exact Or.inl rfl

theorem negative_known {operand : Scalar} {value : Decimal} (known : Known bindings operand value) :
    Known bindings (negative operand) (-value) := by
  unfold negative
  split
  case h_1 number found =>
      rw [known.number found]
      exact literal_known _
  case h_2 =>
      split
      case h_1 inner => exact (negative_known_iff _ _).1 known
      case h_2 =>
          rw [negative_known_iff, neg_neg]
          exact known

theorem negation_known {scalar other : Scalar} {first second : Decimal}
    (negated : isNegationOf scalar other = true) (scalarKnown : Known bindings scalar first)
    (otherKnown : Known bindings other second) : first = -second := by
  unfold isNegationOf at negated
  split at negated
  case h_1 inner =>
      have same := ((negative_known_iff _ _).1 scalarKnown).of_same otherKnown negated
      rw [← same, neg_neg]
  case h_2 => exact absurd negated (by simp)

theorem sum_known {left right : Scalar} {first second : Decimal}
    (leftKnown : Known bindings left first) (rightKnown : Known bindings right second) :
    Known bindings (sum left right) (first + second) := by
  fun_induction sum left right generalizing first second with
  | case1 left right leftValue rightValue rightFound leftFound =>
      rw [leftKnown.number leftFound, rightKnown.number rightFound]
      exact literal_known _
  | case2 left right zero _ =>
      rw [leftKnown.zero zero, zero_add]
      exact rightKnown
  | case3 left right _ zero _ =>
      rw [rightKnown.zero zero, add_zero]
      exact leftKnown
  | case4 left right _ _ opposite _ =>
      have cancels : first + second = 0 := by
        rcases Bool.or_eq_true .. ▸ opposite with rightOpposite | leftOpposite
        · rw [negation_known rightOpposite rightKnown leftKnown, add_neg_cancel]
        · rw [negation_known leftOpposite leftKnown rightKnown, neg_add_cancel]
      rw [cancels]
      exact literal_known 0
  | case5 leftInner rightInner _ _ _ _ ih =>
      have inner := ih ((negative_known_iff _ _).1 leftKnown) ((negative_known_iff _ _).1 rightKnown)
      have outer := negative_known inner
      rwa [neg_add, neg_neg, neg_neg] at outer
  | case6 => exact add_known leftKnown rightKnown

theorem product_known {left right : Scalar} {first second : Decimal}
    (leftKnown : Known bindings left first) (rightKnown : Known bindings right second) :
    Known bindings (product left right) (first * second) := by
  unfold product
  split
  case h_1 leftValue rightValue leftFound rightFound =>
      rw [leftKnown.number leftFound, rightKnown.number rightFound]
      exact literal_known _
  case h_2 =>
      split_ifs with zero leftOne rightOne
      · have vanishes : first * second = 0 := by
          rcases Bool.or_eq_true .. ▸ zero with leftZero | rightZero
          · rw [leftKnown.zero leftZero, zero_mul]
          · rw [rightKnown.zero rightZero, mul_zero]
        rw [vanishes]
        exact literal_known 0
      · rw [leftKnown.one leftOne, one_mul]
        exact rightKnown
      · rw [rightKnown.one rightOne, mul_one]
        exact leftKnown
      · exact (mul_known_iff _ _ _).2 ⟨first, second, leftKnown, rightKnown, rfl⟩

theorem quotient_known {left right : Scalar} {first second value : Decimal}
    (subject : Unit → String) (leftKnown : Known bindings left first)
    (rightKnown : Known bindings right second) (divided : first.div? second = some value)
    (byOne : left.value? = none → right.isOne = true → value = first) :
    ∃ result, quotient subject left right = .ok result ∧ Known bindings result value := by
  have notZero : second ≠ 0 := by
    rintro rfl
    rw [Decimal.div_by_zero] at divided
    exact absurd divided (by simp)
  have notIsZero : ¬right.isZero = true := fun zero => notZero (rightKnown.zero zero)
  unfold quotient
  rw [if_neg notIsZero]
  split
  case h_1 leftValue rightValue leftFound rightFound =>
      rw [leftKnown.number leftFound, rightKnown.number rightFound,
        (Decimal.quotient_ok_iff _ _ _).2 divided]
      exact ⟨literal value, rfl, literal_known value⟩
  case h_2 notBoth =>
      split_ifs with one zero
      · -- The divisor is a number, so what is divided is not.
        obtain ⟨number, rightFound, _⟩ := (Option.any_eq_true _ _).1 one
        rcases not_both_numbers notBoth with notNumber | rightNone
        · rw [byOne notNumber one]
          exact ⟨left, rfl, leftKnown⟩
        · exact absurd (rightNone.symm.trans rightFound) (by simp)
      · have firstZero := leftKnown.zero zero
        rw [firstZero, Decimal.zero_div second notZero, Option.some.injEq] at divided
        rw [← divided]
        exact ⟨Scalar.zero, rfl, literal_known 0⟩
      · exact ⟨div left right, rfl,
          (div_known_iff _ _ _).2 ⟨first, second, leftKnown, rightKnown, divided⟩⟩

section Extremum

variable {choose : Decimal → Decimal → Decimal} {before : Decimal → Decimal → Prop}

/-- Operands may be replaced by lists among which they are the choice. -/
theorem chosen_flat_map (choice : Choice choose before) {splice : Scalar → List Scalar}
    {operands : List Scalar} {value : Decimal}
    (spliced : ∀ operand ∈ operands, ∀ number, operand.eval bindings = .ok number →
      Chosen before bindings (splice operand) number)
    (chosen : Chosen before bindings operands value) :
    Chosen before bindings (operands.flatMap splice) value := by
  constructor
  · intro part member
    obtain ⟨operand, operandMember, partMember⟩ := List.mem_flatMap.1 member
    obtain ⟨number, numberOk, ordered⟩ := chosen.all operand operandMember
    obtain ⟨other, otherOk, otherOrdered⟩ :=
      (spliced operand operandMember number numberOk).all part partMember
    exact ⟨other, otherOk, choice.trans _ _ _ ordered otherOrdered⟩
  · obtain ⟨operand, operandMember, operandOk⟩ := chosen.one
    obtain ⟨part, partMember, partOk⟩ := (spliced operand operandMember value operandOk).one
    exact ⟨part, List.mem_flatMap.2 ⟨operand, operandMember, partMember⟩, partOk⟩

/-- A choice among operands is the choice among operands that have their values. -/
theorem chosen_of_related {before : Decimal → Decimal → Prop} {operands others : List Scalar}
    {value : Decimal}
    (related : List.Forall₂ (fun operand other => ∀ number, operand.eval bindings = .ok number →
      other.eval bindings = .ok number) operands others)
    (chosen : Chosen before bindings operands value) : Chosen before bindings others value := by
  constructor
  · intro other member
    obtain ⟨operand, operandMember, evaluates⟩ := Outcome.source_of_mem related member
    obtain ⟨number, numberOk, ordered⟩ := chosen.all operand operandMember
    exact ⟨number, evaluates number numberOk, ordered⟩
  · obtain ⟨operand, operandMember, operandOk⟩ := chosen.one
    obtain ⟨other, otherMember, evaluates⟩ := Outcome.target_of_mem related operandMember
    exact ⟨other, otherMember, evaluates value operandOk⟩

theorem chosen_single (choice : Choice choose before) {operand : Scalar} {value : Decimal}
    (operandOk : operand.eval bindings = .ok value) : Chosen before bindings [operand] value := by
  constructor
  · intro other member
    rw [List.mem_singleton.1 member]
    exact ⟨value, operandOk, choice.refl value⟩
  · exact ⟨operand, by simp, operandOk⟩

/-- The numbers among the operands may be replaced by the choice among them. -/
theorem fold_constants_chosen (choice : Choice choose before) {operands : List Scalar}
    {value : Decimal} (chosen : Chosen before bindings operands value) :
    Chosen before bindings (foldConstants choose operands) value := by
  unfold foldConstants
  dsimp only
  split
  case h_1 none =>
      have noNumber : ∀ operand ∈ operands, operand.value?.isNone = true := by
        intro operand member
        cases found : operand.value? with
        | none => rfl
        | some known =>
            have listed : known ∈ operands.filterMap Scalar.value? :=
              List.mem_filterMap.2 ⟨operand, member, found⟩
            rw [none] at listed
            exact absurd listed List.not_mem_nil
      rw [List.filter_eq_self.2 noNumber]
      exact chosen
  case h_2 first rest numbers =>
      obtain ⟨foldMember, foldFirst⟩ := fold_chosen choice first rest
      rw [← numbers] at foldMember foldFirst
      obtain ⟨source, sourceMember, sourceFound⟩ := List.mem_filterMap.1 foldMember
      obtain ⟨_, sourceOk, sourceOrdered⟩ := chosen.all source sourceMember
      rw [eval_of_value sourceFound, Except.ok.injEq] at sourceOk
      constructor
      · intro operand member
        rcases List.mem_append.1 member with kept | last
        · exact chosen.all operand (List.mem_filter.1 kept).1
        · rw [List.mem_singleton.1 last]
          exact ⟨_, rfl, by rw [sourceOk]; exact sourceOrdered⟩
      · obtain ⟨operand, member, operandOk⟩ := chosen.one
        cases found : operand.value? with
        | none => exact ⟨operand, by simp [member, found], operandOk⟩
        | some known =>
            -- A number that is the choice among all is the choice among numbers.
            rw [eval_of_value found, Except.ok.injEq] at operandOk
            subst operandOk
            have ordered := foldFirst known (List.mem_filterMap.2 ⟨operand, member, found⟩)
            have same : rest.foldl choose first = known := by
              rw [← sourceOk] at sourceOrdered
              exact choice.antisymm _ _ ordered sourceOrdered
            exact ⟨literal (rest.foldl choose first), by simp, by rw [same]; rfl⟩

/-- What is built of members has the choice among them as its value. -/
theorem of_members_known {build : List Scalar → Scalar}
    (built : ∀ operands number, Known bindings (build operands) number ↔
      distinct operands = true ∧ (∀ operand ∈ operands, operand.tidy = true) ∧
        Chosen before bindings operands number)
    {members : List Scalar} {value : Decimal}
    (tidied : ∀ member ∈ members, member.tidy = true)
    (chosen : Chosen before bindings members value) :
    ∃ result, ofMembers build members = .ok result ∧ Known bindings result value := by
  have uniqueChosen := chosen_unique tidied chosen
  have uniqueTidy : ∀ member ∈ unique members, member.tidy = true :=
    fun operand member => tidied operand (mem_of_mem_unique member)
  have different := unique_distinct members
  unfold ofMembers
  split
  case h_1 none =>
      obtain ⟨operand, member, _⟩ := uniqueChosen.one
      rw [none] at member
      exact absurd member List.not_mem_nil
  case h_2 member single =>
      rw [single] at uniqueTidy uniqueChosen
      obtain ⟨operand, operandMember, operandOk⟩ := uniqueChosen.one
      rw [List.mem_singleton.1 operandMember] at operandOk
      exact ⟨member, rfl, uniqueTidy member (by simp), operandOk⟩
  case h_3 => exact ⟨_, rfl, (built _ _).2 ⟨different, uniqueTidy, uniqueChosen⟩⟩

/-- Operands are spliced, numbers among them folded and repetitions dropped. -/
theorem spliced_known (choice : Choice choose before) {build : List Scalar → Scalar}
    {splice : Scalar → List Scalar}
    (built : ∀ operands number, Known bindings (build operands) number ↔
      distinct operands = true ∧ (∀ operand ∈ operands, operand.tidy = true) ∧
        Chosen before bindings operands number)
    (spliced : ∀ operand, splice operand = [operand] ∨
      ∃ inner, operand = build inner ∧ splice operand = inner)
    {operands : List Scalar} {value : Decimal}
    (each : ∀ operand ∈ operands, ∃ number, Known bindings operand number)
    (chosen : Chosen before bindings operands value) :
    ∃ result, ofMembers build (foldConstants choose (operands.flatMap splice)) = .ok result ∧
      Known bindings result value := by
  apply of_members_known built
  · intro part member
    rcases mem_fold_constants member with kept | ⟨number, rfl⟩
    · obtain ⟨operand, operandMember, partMember⟩ := List.mem_flatMap.1 kept
      obtain ⟨number, known⟩ := each operand operandMember
      rcases spliced operand with alone | ⟨inner, rfl, same⟩
      · rw [alone] at partMember
        rw [List.mem_singleton.1 partMember]
        exact known.tidied
      · rw [same] at partMember
        exact ((built _ _).1 known).2.1 part partMember
    · rfl
  · apply fold_constants_chosen choice
    refine chosen_flat_map choice ?_ chosen
    intro operand member number operandOk
    rcases spliced operand with alone | ⟨inner, rfl, same⟩
    · rw [alone]
      exact chosen_single choice operandOk
    · obtain ⟨other, known⟩ := each _ member
      have numberSame := known.evaluates.symm.trans operandOk
      rw [Except.ok.injEq] at numberSame
      rw [same, ← numberSame]
      exact ((built _ _).1 known).2.2

end Extremum

theorem not_empty_of_chosen {before : Decimal → Decimal → Prop} {operands : List Scalar}
    {value : Decimal} (chosen : Chosen before bindings operands value) :
    ¬operands.isEmpty = true := by
  obtain ⟨operand, member, _⟩ := chosen.one
  rw [List.isEmpty_iff]
  rintro rfl
  exact absurd member List.not_mem_nil

theorem minimum_known {operands : List Scalar} {value : Decimal} (subject : Unit → String)
    (each : ∀ operand ∈ operands, ∃ number, Known bindings operand number)
    (chosen : Chosen (· ≤ ·) bindings operands value) :
    ∃ result, minimum subject operands = .ok result ∧ Known bindings result value := by
  unfold minimum
  rw [if_neg (not_empty_of_chosen chosen)]
  exact spliced_known choice_min min_known_iff splice_minimum_cases each chosen

theorem maximum_known {operands : List Scalar} {value : Decimal} (subject : Unit → String)
    (each : ∀ operand ∈ operands, ∃ number, Known bindings operand number)
    (chosen : Chosen (· ≥ ·) bindings operands value) :
    ∃ result, maximum subject operands = .ok result ∧ Known bindings result value := by
  unfold maximum
  rw [if_neg (not_empty_of_chosen chosen)]
  exact spliced_known choice_max max_known_iff splice_maximum_cases each chosen

theorem bound_value_number {bound : Option Scalar} {number found : Option Decimal}
    (known : BoundKnown bindings bound number) (isNumber : boundValue? bound = some found) :
    found = number := by
  unfold BoundKnown at known
  cases known with
  | none =>
      rw [boundValue?, Option.some.injEq] at isNumber
      exact isNumber.symm
  | some boundKnown =>
      rw [boundValue?, Option.map_eq_some_iff] at isNumber
      obtain ⟨value, valueFound, rfl⟩ := isNumber
      rw [boundKnown.number valueFound]

theorem slice_known {extent : Scalar} {interval : Interval} {extentValue value : Decimal}
    {startValue stopValue : Option Decimal} (subject : Unit → String)
    (extentKnown : Known bindings extent extentValue)
    (startKnown : BoundKnown bindings interval.start startValue)
    (stopKnown : BoundKnown bindings interval.stop stopValue)
    (length : sliceLength extentValue startValue stopValue = .ok value) :
    ∃ result, slice subject extent interval = .ok result ∧ Known bindings result value := by
  unfold slice
  split_ifs with full
  · rw [Interval.isFull, Bool.and_eq_true, Option.isNone_iff_eq_none, Option.isNone_iff_eq_none]
      at full
    rw [full.1] at startKnown
    rw [full.2] at stopKnown
    cases startKnown
    cases stopKnown
    obtain ⟨_, rfl⟩ := (Waveform.slice_length_ok_iff _ _ _ _).1 length
    rw [Option.getD_none, Option.getD_none, sub_zero]
    exact ⟨extent, rfl, extentKnown⟩
  · split
    case h_1 extentNumber startNumber stopNumber extentFound startFound stopFound =>
        rw [extentKnown.number extentFound, bound_value_number startKnown startFound,
          bound_value_number stopKnown stopFound, length]
        exact ⟨literal value, rfl, literal_known value⟩
    case h_2 =>
        exact ⟨Scalar.slice extent interval.start interval.stop, rfl,
          (slice_known_iff _ _ _ _).2 ⟨extentValue, startValue, stopValue, extentKnown,
            startKnown, stopKnown, length⟩⟩

end Analog.Canonical
