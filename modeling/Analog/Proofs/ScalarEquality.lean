import Analog.Proofs.WaveformNodes

/-!
# Equality of scalars

Equal scalars have equal values. The operands of a minimum or maximum are compared as sets,
and this is sound only if they are all different, as they are when they come from the
constructors that drop repetitions. A scalar in which this holds everywhere is tidy.
-/

set_option autoImplicit false

namespace Analog.Scalar

def distinct : List Scalar → Bool
  | [] => true
  | first :: rest => !rest.any first.same && distinct rest

mutual

/-- Whether the operands of every minimum and maximum are all different. -/
def tidy : Scalar → Bool
  | .literal _ => true
  | .variable _ => true
  | .assigned _ _ => true
  | .negative operand => tidy operand
  | .add left right => tidy left && tidy right
  | .mul left right => tidy left && tidy right
  | .div left right => tidy left && tidy right
  | .min operands => distinct operands && tidyAll operands
  | .max operands => distinct operands && tidyAll operands
  | .slice extent start stop => tidy extent && tidyBound start && tidyBound stop

def tidyAll : List Scalar → Bool
  | [] => true
  | operand :: rest => tidy operand && tidyAll rest

def tidyBound : Option Scalar → Bool
  | none => true
  | some bound => tidy bound

end

theorem distinct_iff (operands : List Scalar) :
    distinct operands = true ↔ operands.Pairwise fun left right => left.same right = false := by
  induction operands with
  | nil => simp [distinct]
  | cons first rest ih => simp [distinct, ih]

theorem tidy_all_iff (operands : List Scalar) :
    tidyAll operands = true ↔ ∀ operand ∈ operands, operand.tidy = true := by
  induction operands with
  | nil => simp [tidyAll]
  | cons first rest ih => simp [tidyAll, ih]

theorem tidy_bound_iff (bound : Option Scalar) :
    tidyBound bound = true ↔ ∀ given ∈ bound, given.tidy = true := by
  cases bound <;> simp [tidyBound]

theorem each_within_iff (lefts rights : List Scalar) :
    eachWithin lefts rights = true ↔
      ∀ left ∈ lefts, ∃ right ∈ rights, left.same right = true := by
  induction lefts with
  | nil => simp [eachWithin]
  | cons left rest ih => simp [eachWithin, ih]

section Inversion

variable (scalar : Scalar)

theorem variable_same_iff (name : String) :
    (Scalar.variable name).same scalar = true ↔ Scalar.variable name = scalar := by
  rw [same.eq_def]
  cases scalar <;> simp

theorem assigned_same_iff (name : String) (value : Decimal) :
    (assigned name value).same scalar = true ↔ assigned name value = scalar := by
  rw [same.eq_def]
  cases scalar <;> simp

theorem negative_same_iff (operand : Scalar) :
    (negative operand).same scalar = true ↔
      ∃ other, scalar = negative other ∧ operand.same other = true := by
  rw [same.eq_def]
  cases scalar <;> simp

theorem add_same_iff (left right : Scalar) :
    (add left right).same scalar = true ↔
      ∃ first second, scalar = add first second ∧ left.same first = true ∧
        right.same second = true := by
  rw [same.eq_def]
  cases scalar <;> simp

theorem mul_same_iff (left right : Scalar) :
    (mul left right).same scalar = true ↔
      ∃ first second, scalar = mul first second ∧ left.same first = true ∧
        right.same second = true := by
  rw [same.eq_def]
  cases scalar <;> simp

theorem div_same_iff (left right : Scalar) :
    (div left right).same scalar = true ↔
      ∃ first second, scalar = div first second ∧ left.same first = true ∧
        right.same second = true := by
  rw [same.eq_def]
  cases scalar <;> simp

theorem min_same_iff (operands : List Scalar) :
    (min operands).same scalar = true ↔
      ∃ others, scalar = min others ∧ operands.length = others.length ∧
        ∀ operand ∈ operands, ∃ other ∈ others, operand.same other = true := by
  rw [same.eq_def]
  cases scalar <;> simp [each_within_iff]

theorem max_same_iff (operands : List Scalar) :
    (max operands).same scalar = true ↔
      ∃ others, scalar = max others ∧ operands.length = others.length ∧
        ∀ operand ∈ operands, ∃ other ∈ others, operand.same other = true := by
  rw [same.eq_def]
  cases scalar <;> simp [each_within_iff]

theorem same_bound_iff (left right : Option Scalar) :
    sameBound left right = true ↔ Option.Rel (fun first second => first.same second = true) left right := by
  cases left <;> cases right <;> simp [sameBound]

theorem slice_same_iff (extent : Scalar) (start stop : Option Scalar) :
    (slice extent start stop).same scalar = true ↔
      ∃ otherExtent otherStart otherStop, scalar = slice otherExtent otherStart otherStop ∧
        sameBound start otherStart = true ∧ sameBound stop otherStop = true ∧
        extent.same otherExtent = true := by
  rw [same.eq_def]
  cases scalar <;> simp [and_assoc]

end Inversion

theorem same_refl (scalar : Scalar) : scalar.same scalar = true := by
  induction scalar using Scalar.parts_induction with
  | literal value => simp [same]
  | named name => simp [same]
  | assigned name value => simp [same]
  | negative operand ih => simp [same, ih]
  | add left right leftIh rightIh => simp [same, leftIh, rightIh]
  | mul left right leftIh rightIh => simp [same, leftIh, rightIh]
  | div left right leftIh rightIh => simp [same, leftIh, rightIh]
  | min operands ih => exact (min_same_iff _ _).2 ⟨operands, rfl, rfl, fun one member => ⟨one, member, ih one member⟩⟩
  | max operands ih => exact (max_same_iff _ _).2 ⟨operands, rfl, rfl, fun one member => ⟨one, member, ih one member⟩⟩
  | slice extent start stop extentIh startIh stopIh =>
      have startSame : sameBound start start = true := by
        cases start with
        | none => rfl
        | some bound => simpa [sameBound] using startIh
      have stopSame : sameBound stop stop = true := by
        cases stop with
        | none => rfl
        | some bound => simpa [sameBound] using stopIh
      simp [same, extentIh, startSame, stopSame]

theorem within_trans {operands others thirds : List Scalar}
    (ih : ∀ operand ∈ operands, ∀ second third, operand.same second = true →
      second.same third = true → operand.same third = true)
    (first : ∀ operand ∈ operands, ∃ other ∈ others, operand.same other = true)
    (second : ∀ other ∈ others, ∃ third ∈ thirds, other.same third = true) :
    ∀ operand ∈ operands, ∃ third ∈ thirds, operand.same third = true := by
  intro operand member
  obtain ⟨other, otherMember, otherSame⟩ := first operand member
  obtain ⟨third, thirdMember, thirdSame⟩ := second other otherMember
  exact ⟨third, thirdMember, ih operand member other third otherSame thirdSame⟩

theorem same_bound_trans {bound second third : Option Scalar}
    (ih : ∀ given ∈ bound, ∀ second third, given.same second = true →
      second.same third = true → given.same third = true)
    (firstSame : sameBound bound second = true) (secondSame : sameBound second third = true) :
    sameBound bound third = true := by
  rw [same_bound_iff] at firstSame secondSame ⊢
  cases firstSame with
  | none => exact secondSame
  | some firstSame =>
      cases secondSame with
      | some secondSame => exact .some (ih _ rfl _ _ firstSame secondSame)

theorem same_trans (first second third : Scalar) (firstSame : first.same second = true)
    (secondSame : second.same third = true) : first.same third = true := by
  induction first using Scalar.parts_induction generalizing second third with
  | literal value =>
      rw [literal_same_iff] at firstSame
      rwa [firstSame]
  | named name =>
      rw [variable_same_iff] at firstSame
      rwa [firstSame]
  | assigned name value =>
      rw [assigned_same_iff] at firstSame
      rwa [firstSame]
  | negative operand ih =>
      obtain ⟨other, rfl, otherSame⟩ := (negative_same_iff _ _).1 firstSame
      obtain ⟨last, rfl, lastSame⟩ := (negative_same_iff _ _).1 secondSame
      exact (negative_same_iff _ _).2 ⟨last, rfl, ih _ _ otherSame lastSame⟩
  | add left right leftIh rightIh =>
      obtain ⟨_, _, rfl, leftSame, rightSame⟩ := (add_same_iff _ _ _).1 firstSame
      obtain ⟨_, _, rfl, leftNext, rightNext⟩ := (add_same_iff _ _ _).1 secondSame
      exact (add_same_iff _ _ _).2
        ⟨_, _, rfl, leftIh _ _ leftSame leftNext, rightIh _ _ rightSame rightNext⟩
  | mul left right leftIh rightIh =>
      obtain ⟨_, _, rfl, leftSame, rightSame⟩ := (mul_same_iff _ _ _).1 firstSame
      obtain ⟨_, _, rfl, leftNext, rightNext⟩ := (mul_same_iff _ _ _).1 secondSame
      exact (mul_same_iff _ _ _).2
        ⟨_, _, rfl, leftIh _ _ leftSame leftNext, rightIh _ _ rightSame rightNext⟩
  | div left right leftIh rightIh =>
      obtain ⟨_, _, rfl, leftSame, rightSame⟩ := (div_same_iff _ _ _).1 firstSame
      obtain ⟨_, _, rfl, leftNext, rightNext⟩ := (div_same_iff _ _ _).1 secondSame
      exact (div_same_iff _ _ _).2
        ⟨_, _, rfl, leftIh _ _ leftSame leftNext, rightIh _ _ rightSame rightNext⟩
  | min operands ih =>
      obtain ⟨others, rfl, sameLength, within⟩ := (min_same_iff _ _).1 firstSame
      obtain ⟨last, rfl, lastLength, lastWithin⟩ := (min_same_iff _ _).1 secondSame
      exact (min_same_iff _ _).2
        ⟨last, rfl, sameLength.trans lastLength, within_trans ih within lastWithin⟩
  | max operands ih =>
      obtain ⟨others, rfl, sameLength, within⟩ := (max_same_iff _ _).1 firstSame
      obtain ⟨last, rfl, lastLength, lastWithin⟩ := (max_same_iff _ _).1 secondSame
      exact (max_same_iff _ _).2
        ⟨last, rfl, sameLength.trans lastLength, within_trans ih within lastWithin⟩
  | slice extent start stop extentIh startIh stopIh =>
      obtain ⟨_, _, _, rfl, startSame, stopSame, extentSame⟩ := (slice_same_iff _ _ _ _).1 firstSame
      obtain ⟨_, _, _, rfl, startNext, stopNext, extentNext⟩ := (slice_same_iff _ _ _ _).1 secondSame
      exact (slice_same_iff _ _ _ _).2 ⟨_, _, _, rfl, same_bound_trans startIh startSame startNext,
        same_bound_trans stopIh stopSame stopNext, extentIh _ _ extentSame extentNext⟩

/-- Different operands that all have an equal in a list have different ones. -/
theorem exists_part_matching_of_distinct (operands others : List Scalar)
    (different : operands.Pairwise fun left right => left.same right = false)
    (symmetric : ∀ operand ∈ operands, ∀ other, operand.same other = true →
      other.same operand = true)
    (within : ∀ operand ∈ operands, ∃ other ∈ others, operand.same other = true) :
    ∃ matched rest : List Scalar, (matched ++ rest).Perm others ∧
      List.Forall₂ (fun operand other => operand.same other = true) operands matched := by
  have apart : operands.Pairwise fun first second => ∀ other, first.same other = true →
      ¬second.same other = true := by
    refine different.imp_of_mem fun {first second} _ secondMember unequal other firstSame
      secondSame => ?_
    have back := symmetric second secondMember other secondSame
    rw [same_trans first other second firstSame back] at unequal
    cases unequal
  exact Outcome.exists_matching operands others apart within

/-- Different operands that all have an equal in a list as long are that list, in some order. -/
theorem exists_matching_of_distinct (operands others : List Scalar)
    (different : operands.Pairwise fun left right => left.same right = false)
    (symmetric : ∀ operand ∈ operands, ∀ other, operand.same other = true →
      other.same operand = true)
    (sameLength : operands.length = others.length)
    (within : ∀ operand ∈ operands, ∃ other ∈ others, operand.same other = true) :
    ∃ matched : List Scalar, matched.Perm others ∧
      List.Forall₂ (fun operand other => operand.same other = true) operands matched := by
  obtain ⟨matched, rest, perm, each⟩ :=
    exists_part_matching_of_distinct operands others different symmetric within
  have sizes := perm.length_eq
  rw [List.length_append, ← each.length_eq, sameLength] at sizes
  obtain rfl : rest = [] := List.length_eq_zero_iff.1 (by omega)
  rw [List.append_nil] at perm
  exact ⟨matched, perm, each⟩

/-- If all expressions of a list are different and each has an equal in a list of the same
length, then that list has no others. -/
theorem within_of_distinct (operands others : List Scalar)
    (different : operands.Pairwise fun left right => left.same right = false)
    (symmetric : ∀ operand ∈ operands, ∀ other, operand.same other = true →
      other.same operand = true)
    (sameLength : operands.length = others.length)
    (within : ∀ operand ∈ operands, ∃ other ∈ others, operand.same other = true) :
    ∀ other ∈ others, ∃ operand ∈ operands, operand.same other = true := by
  obtain ⟨matched, perm, each⟩ :=
    exists_matching_of_distinct operands others different symmetric sameLength within
  exact fun other member => Outcome.source_of_mem each (perm.mem_iff.2 member)

theorem same_bound_symm {bound other : Option Scalar}
    (ih : ∀ given ∈ bound, ∀ other, given.same other = true → other.same given = true)
    (equal : sameBound bound other = true) : sameBound other bound = true := by
  rw [same_bound_iff] at equal ⊢
  cases equal with
  | none => exact .none
  | some equal => exact .some (ih _ rfl _ equal)

theorem same_symm (first second : Scalar) (tidied : first.tidy = true)
    (equal : first.same second = true) : second.same first = true := by
  induction first using Scalar.parts_induction generalizing second with
  | literal value =>
      rw [literal_same_iff] at equal
      rw [← equal]
      exact same_refl _
  | named name =>
      rw [variable_same_iff] at equal
      rw [← equal]
      exact same_refl _
  | assigned name value =>
      rw [assigned_same_iff] at equal
      rw [← equal]
      exact same_refl _
  | negative operand ih =>
      obtain ⟨other, rfl, otherSame⟩ := (negative_same_iff _ _).1 equal
      exact (negative_same_iff _ _).2 ⟨operand, rfl, ih other tidied otherSame⟩
  | add left right leftIh rightIh =>
      obtain ⟨_, _, rfl, leftSame, rightSame⟩ := (add_same_iff _ _ _).1 equal
      rw [tidy, Bool.and_eq_true] at tidied
      exact (add_same_iff _ _ _).2
        ⟨_, _, rfl, leftIh _ tidied.1 leftSame, rightIh _ tidied.2 rightSame⟩
  | mul left right leftIh rightIh =>
      obtain ⟨_, _, rfl, leftSame, rightSame⟩ := (mul_same_iff _ _ _).1 equal
      rw [tidy, Bool.and_eq_true] at tidied
      exact (mul_same_iff _ _ _).2
        ⟨_, _, rfl, leftIh _ tidied.1 leftSame, rightIh _ tidied.2 rightSame⟩
  | div left right leftIh rightIh =>
      obtain ⟨_, _, rfl, leftSame, rightSame⟩ := (div_same_iff _ _ _).1 equal
      rw [tidy, Bool.and_eq_true] at tidied
      exact (div_same_iff _ _ _).2
        ⟨_, _, rfl, leftIh _ tidied.1 leftSame, rightIh _ tidied.2 rightSame⟩
  | min operands ih =>
      obtain ⟨others, rfl, sameLength, within⟩ := (min_same_iff _ _).1 equal
      rw [tidy, Bool.and_eq_true, distinct_iff, tidy_all_iff] at tidied
      have symmetric := fun operand member other => ih operand member other (tidied.2 operand member)
      refine (min_same_iff _ _).2 ⟨operands, rfl, sameLength.symm, ?_⟩
      intro other member
      obtain ⟨operand, operandMember, back⟩ :=
        within_of_distinct operands others tidied.1 symmetric sameLength within other member
      exact ⟨operand, operandMember, symmetric operand operandMember other back⟩
  | max operands ih =>
      obtain ⟨others, rfl, sameLength, within⟩ := (max_same_iff _ _).1 equal
      rw [tidy, Bool.and_eq_true, distinct_iff, tidy_all_iff] at tidied
      have symmetric := fun operand member other => ih operand member other (tidied.2 operand member)
      refine (max_same_iff _ _).2 ⟨operands, rfl, sameLength.symm, ?_⟩
      intro other member
      obtain ⟨operand, operandMember, back⟩ :=
        within_of_distinct operands others tidied.1 symmetric sameLength within other member
      exact ⟨operand, operandMember, symmetric operand operandMember other back⟩
  | slice extent start stop extentIh startIh stopIh =>
      obtain ⟨_, _, _, rfl, startSame, stopSame, extentSame⟩ := (slice_same_iff _ _ _ _).1 equal
      rw [tidy, Bool.and_eq_true, Bool.and_eq_true, tidy_bound_iff, tidy_bound_iff] at tidied
      obtain ⟨⟨extentTidy, startTidy⟩, stopTidy⟩ := tidied
      exact (slice_same_iff _ _ _ _).2 ⟨_, _, _, rfl,
        same_bound_symm (fun given member other => startIh given member other
          (startTidy given member)) startSame,
        same_bound_symm (fun given member other => stopIh given member other
          (stopTidy given member)) stopSame,
        extentIh _ extentTidy extentSame⟩

/-- A choice between two numbers that comes before both in some order. -/
structure Choice (choose : Decimal → Decimal → Decimal) (before : Decimal → Decimal → Prop) :
    Prop where
  either : ∀ left right, choose left right = left ∨ choose left right = right
  beforeLeft : ∀ left right, before (choose left right) left
  beforeRight : ∀ left right, before (choose left right) right
  refl : ∀ value, before value value
  trans : ∀ first second third, before first second → before second third → before first third
  antisymm : ∀ first second, before first second → before second first → first = second

theorem choice_min : Choice Min.min (· ≤ ·) :=
  ⟨min_choice, min_le_left, min_le_right, le_refl, fun _ _ _ => le_trans, fun _ _ => le_antisymm⟩

theorem choice_max : Choice Max.max (· ≥ ·) :=
  ⟨max_choice, le_max_left, le_max_right, le_refl, fun _ _ _ first second => le_trans second first,
    fun _ _ first second => le_antisymm second first⟩

/-- The value that comes before the values of all operands and is one of them. -/
structure Chosen (before : Decimal → Decimal → Prop) (bindings : ScalarBindings)
    (operands : List Scalar) (value : Decimal) : Prop where
  all : ∀ operand ∈ operands, ∃ other, operand.eval bindings = .ok other ∧ before value other
  one : ∃ operand ∈ operands, operand.eval bindings = .ok value

variable {bindings : ScalarBindings}

theorem eval_all_eq_mapM (operands : List Scalar) :
    evalAll bindings operands = operands.mapM (eval bindings) := by
  induction operands with
  | nil => rfl
  | cons operand rest ih =>
      unfold evalAll
      rw [List.mapM_cons, ih]

theorem eval_all_ok_iff (operands : List Scalar) (values : List Decimal) :
    evalAll bindings operands = .ok values ↔
      List.Forall₂ (fun operand value => operand.eval bindings = .ok value) operands values := by
  rw [eval_all_eq_mapM, Outcome.mapM_ok_iff]

theorem fold_chosen {choose : Decimal → Decimal → Decimal} {before : Decimal → Decimal → Prop}
    (choice : Choice choose before) (first : Decimal) (rest : List Decimal) :
    rest.foldl choose first ∈ first :: rest ∧
      ∀ value ∈ first :: rest, before (rest.foldl choose first) value := by
  induction rest generalizing first with
  | nil => simp [choice.refl]
  | cons next others ih =>
      obtain ⟨member, least⟩ := ih (choose first next)
      have head := least (choose first next) (by simp)
      rw [List.foldl_cons]
      constructor
      · rcases List.mem_cons.1 member with same | later
        · rw [same]
          rcases choice.either first next with left | right
          · simp [left]
          · simp [right]
        · simp [later]
      · intro value valueMember
        rcases List.mem_cons.1 valueMember with rfl | later
        · exact choice.trans _ _ _ head (choice.beforeLeft value next)
        · rcases List.mem_cons.1 later with rfl | latest
          · exact choice.trans _ _ _ head (choice.beforeRight first value)
          · exact least value (by simp [latest])

theorem chosen_iff_fold {choose : Decimal → Decimal → Decimal} {before : Decimal → Decimal → Prop}
    (choice : Choice choose before) (operands : List Scalar) (value : Decimal) :
    Chosen before bindings operands value ↔
      ∃ first rest, evalAll bindings operands = .ok (first :: rest) ∧
        value = rest.foldl choose first := by
  simp only [eval_all_ok_iff]
  constructor
  · rintro ⟨all, one⟩
    have evaluated : ∃ values, List.Forall₂
        (fun operand value => operand.eval bindings = .ok value) operands values := by
      clear one
      induction operands with
      | nil => exact ⟨[], List.Forall₂.nil⟩
      | cons operand rest ih =>
          obtain ⟨values, related⟩ := ih fun other member => all other (by simp [member])
          obtain ⟨other, otherOk, _⟩ := all operand (by simp)
          exact ⟨other :: values, List.Forall₂.cons otherOk related⟩
    obtain ⟨values, related⟩ := evaluated
    obtain ⟨chosen, chosenMember, chosenOk⟩ := one
    obtain ⟨other, otherMember, otherOk⟩ := Outcome.target_of_mem related chosenMember
    rw [chosenOk, Except.ok.injEq] at otherOk
    subst otherOk
    cases values with
    | nil => exact absurd otherMember List.not_mem_nil
    | cons first rest =>
        obtain ⟨member, least⟩ := fold_chosen choice first rest
        obtain ⟨operand, operandMember, operandOk⟩ := Outcome.source_of_mem related member
        obtain ⟨_, same, ordered⟩ := all operand operandMember
        rw [operandOk, Except.ok.injEq] at same
        subst same
        exact ⟨first, rest, related, choice.antisymm _ _ ordered (least value otherMember)⟩
  · rintro ⟨first, rest, related, rfl⟩
    obtain ⟨member, least⟩ := fold_chosen choice first rest
    constructor
    · intro operand operandMember
      obtain ⟨other, otherMember, otherOk⟩ := Outcome.target_of_mem related operandMember
      exact ⟨other, otherOk, least other otherMember⟩
    · exact Outcome.source_of_mem related member

theorem eval_min_ok_iff (operands : List Scalar) (value : Decimal) :
    (min operands).eval bindings = .ok value ↔ Chosen (· ≤ ·) bindings operands value := by
  rw [chosen_iff_fold choice_min]
  unfold eval
  rw [Outcome.bind_ok_iff]
  constructor
  · rintro ⟨values, valuesOk, folded⟩
    cases values with
    | nil => exact absurd folded (by simp)
    | cons first rest => exact ⟨first, rest, valuesOk, ((Outcome.pure_ok_iff _ _).1 folded).symm⟩
  · rintro ⟨first, rest, valuesOk, rfl⟩
    exact ⟨first :: rest, valuesOk, rfl⟩

theorem eval_max_ok_iff (operands : List Scalar) (value : Decimal) :
    (max operands).eval bindings = .ok value ↔ Chosen (· ≥ ·) bindings operands value := by
  rw [chosen_iff_fold choice_max]
  unfold eval
  rw [Outcome.bind_ok_iff]
  constructor
  · rintro ⟨values, valuesOk, folded⟩
    cases values with
    | nil => exact absurd folded (by simp)
    | cons first rest => exact ⟨first, rest, valuesOk, ((Outcome.pure_ok_iff _ _).1 folded).symm⟩
  · rintro ⟨first, rest, valuesOk, rfl⟩
    exact ⟨first :: rest, valuesOk, rfl⟩

@[simp] theorem eval_literal (value : Decimal) : (literal value).eval bindings = .ok value := rfl

@[simp] theorem eval_assigned (name : String) (value : Decimal) :
    (assigned name value).eval bindings = .ok value := rfl

theorem eval_negative_ok_iff (operand : Scalar) (value : Decimal) :
    (negative operand).eval bindings = .ok value ↔
      ∃ inner, operand.eval bindings = .ok inner ∧ value = -inner := by
  rw [eval, Outcome.bind_ok_iff]
  simp only [Outcome.pure_ok_iff, eq_comm (a := value)]

theorem eval_add_ok_iff (left right : Scalar) (value : Decimal) :
    (add left right).eval bindings = .ok value ↔
      ∃ first second, left.eval bindings = .ok first ∧ right.eval bindings = .ok second ∧
        value = first + second := by
  rw [eval]
  simp only [Outcome.bind_ok_iff, Outcome.pure_ok_iff]
  constructor
  · rintro ⟨first, firstOk, second, secondOk, rfl⟩
    exact ⟨first, second, firstOk, secondOk, rfl⟩
  · rintro ⟨first, second, firstOk, secondOk, rfl⟩
    exact ⟨first, firstOk, second, secondOk, rfl⟩

theorem eval_mul_ok_iff (left right : Scalar) (value : Decimal) :
    (mul left right).eval bindings = .ok value ↔
      ∃ first second, left.eval bindings = .ok first ∧ right.eval bindings = .ok second ∧
        value = first * second := by
  rw [eval]
  simp only [Outcome.bind_ok_iff, Outcome.pure_ok_iff]
  constructor
  · rintro ⟨first, firstOk, second, secondOk, rfl⟩
    exact ⟨first, second, firstOk, secondOk, rfl⟩
  · rintro ⟨first, second, firstOk, secondOk, rfl⟩
    exact ⟨first, firstOk, second, secondOk, rfl⟩

theorem eval_div_ok_iff (left right : Scalar) (value : Decimal) :
    (div left right).eval bindings = .ok value ↔
      ∃ first second, left.eval bindings = .ok first ∧ right.eval bindings = .ok second ∧
        first.div? second = some value := by
  rw [eval]
  simp only [Outcome.bind_ok_iff]
  constructor
  · rintro ⟨first, firstOk, second, secondOk, divided⟩
    cases quotient : first.div? second with
    | none => simp [quotient] at divided
    | some found =>
        simp only [quotient, Except.ok.injEq] at divided
        exact ⟨first, second, firstOk, secondOk, by rw [quotient, divided]⟩
  · rintro ⟨first, second, firstOk, secondOk, divided⟩
    exact ⟨first, firstOk, second, secondOk, by simp [divided]⟩

theorem eval_bound_ok_iff (bound : Option Scalar) (value : Option Decimal) :
    evalBound bindings bound = .ok value ↔
      Option.Rel (fun given number => given.eval bindings = .ok number) bound value := by
  cases bound with
  | none => cases value <;> simp [evalBound]
  | some given =>
      rw [evalBound, Outcome.bind_ok_iff]
      cases value <;> simp

theorem eval_slice_ok_iff (extent : Scalar) (start stop : Option Scalar) (value : Decimal) :
    (slice extent start stop).eval bindings = .ok value ↔
      ∃ extentValue startValue stopValue, extent.eval bindings = .ok extentValue ∧
        evalBound bindings start = .ok startValue ∧ evalBound bindings stop = .ok stopValue ∧
        sliceLength extentValue startValue stopValue = .ok value := by
  rw [eval]
  simp only [Outcome.bind_ok_iff, Outcome.blame_ok_iff]
  constructor
  · rintro ⟨extentValue, extentOk, startValue, startOk, stopValue, stopOk, length⟩
    exact ⟨extentValue, startValue, stopValue, extentOk, startOk, stopOk, length⟩
  · rintro ⟨extentValue, startValue, stopValue, extentOk, startOk, stopOk, length⟩
    exact ⟨extentValue, extentOk, startValue, startOk, stopValue, stopOk, length⟩

theorem chosen_of_same {before : Decimal → Decimal → Prop} {operands others : List Scalar}
    {value : Decimal}
    (ih : ∀ operand ∈ operands, ∀ other number, operand.same other = true →
      operand.eval bindings = .ok number → other.eval bindings = .ok number)
    (within : ∀ operand ∈ operands, ∃ other ∈ others, operand.same other = true)
    (covered : ∀ other ∈ others, ∃ operand ∈ operands, operand.same other = true)
    (chosen : Chosen before bindings operands value) : Chosen before bindings others value := by
  constructor
  · intro other member
    obtain ⟨operand, operandMember, equal⟩ := covered other member
    obtain ⟨number, numberOk, ordered⟩ := chosen.all operand operandMember
    exact ⟨number, ih operand operandMember other number equal numberOk, ordered⟩
  · obtain ⟨operand, operandMember, operandOk⟩ := chosen.one
    obtain ⟨other, member, equal⟩ := within operand operandMember
    exact ⟨other, member, ih operand operandMember other value equal operandOk⟩

theorem eval_bound_of_same {bound other : Option Scalar} {value : Option Decimal}
    (ih : ∀ given ∈ bound, ∀ other number, given.same other = true →
      given.eval bindings = .ok number → other.eval bindings = .ok number)
    (equal : sameBound bound other = true) (boundOk : evalBound bindings bound = .ok value) :
    evalBound bindings other = .ok value := by
  rw [same_bound_iff] at equal
  rw [eval_bound_ok_iff] at boundOk ⊢
  cases equal with
  | none => exact boundOk
  | some equal =>
      cases boundOk with
      | some numberOk => exact .some (ih _ rfl _ _ equal numberOk)

theorem eval_of_same (first second : Scalar) (value : Decimal) (tidied : first.tidy = true)
    (equal : first.same second = true) (firstOk : first.eval bindings = .ok value) :
    second.eval bindings = .ok value := by
  induction first using Scalar.parts_induction generalizing second value with
  | literal number =>
      rw [literal_same_iff] at equal
      rwa [← equal]
  | named name =>
      rw [variable_same_iff] at equal
      rwa [← equal]
  | assigned name number =>
      rw [assigned_same_iff] at equal
      rwa [← equal]
  | negative operand ih =>
      obtain ⟨other, rfl, otherSame⟩ := (negative_same_iff _ _).1 equal
      obtain ⟨inner, innerOk, rfl⟩ := (eval_negative_ok_iff _ _).1 firstOk
      exact (eval_negative_ok_iff _ _).2 ⟨inner, ih other inner tidied otherSame innerOk, rfl⟩
  | add left right leftIh rightIh =>
      obtain ⟨_, _, rfl, leftSame, rightSame⟩ := (add_same_iff _ _ _).1 equal
      obtain ⟨leftValue, rightValue, leftOk, rightOk, rfl⟩ := (eval_add_ok_iff _ _ _).1 firstOk
      rw [tidy, Bool.and_eq_true] at tidied
      exact (eval_add_ok_iff _ _ _).2 ⟨leftValue, rightValue,
        leftIh _ _ tidied.1 leftSame leftOk, rightIh _ _ tidied.2 rightSame rightOk, rfl⟩
  | mul left right leftIh rightIh =>
      obtain ⟨_, _, rfl, leftSame, rightSame⟩ := (mul_same_iff _ _ _).1 equal
      obtain ⟨leftValue, rightValue, leftOk, rightOk, rfl⟩ := (eval_mul_ok_iff _ _ _).1 firstOk
      rw [tidy, Bool.and_eq_true] at tidied
      exact (eval_mul_ok_iff _ _ _).2 ⟨leftValue, rightValue,
        leftIh _ _ tidied.1 leftSame leftOk, rightIh _ _ tidied.2 rightSame rightOk, rfl⟩
  | div left right leftIh rightIh =>
      obtain ⟨_, _, rfl, leftSame, rightSame⟩ := (div_same_iff _ _ _).1 equal
      obtain ⟨leftValue, rightValue, leftOk, rightOk, divided⟩ := (eval_div_ok_iff _ _ _).1 firstOk
      rw [tidy, Bool.and_eq_true] at tidied
      exact (eval_div_ok_iff _ _ _).2 ⟨leftValue, rightValue,
        leftIh _ _ tidied.1 leftSame leftOk, rightIh _ _ tidied.2 rightSame rightOk, divided⟩
  | min operands ih =>
      obtain ⟨others, rfl, sameLength, within⟩ := (min_same_iff _ _).1 equal
      rw [tidy, Bool.and_eq_true, distinct_iff, tidy_all_iff] at tidied
      have covered := within_of_distinct operands others tidied.1
        (fun operand member other => same_symm operand other (tidied.2 operand member))
        sameLength within
      rw [eval_min_ok_iff] at firstOk ⊢
      exact chosen_of_same (fun operand member other number =>
        ih operand member other number (tidied.2 operand member)) within covered firstOk
  | max operands ih =>
      obtain ⟨others, rfl, sameLength, within⟩ := (max_same_iff _ _).1 equal
      rw [tidy, Bool.and_eq_true, distinct_iff, tidy_all_iff] at tidied
      have covered := within_of_distinct operands others tidied.1
        (fun operand member other => same_symm operand other (tidied.2 operand member))
        sameLength within
      rw [eval_max_ok_iff] at firstOk ⊢
      exact chosen_of_same (fun operand member other number =>
        ih operand member other number (tidied.2 operand member)) within covered firstOk
  | slice extent start stop extentIh startIh stopIh =>
      obtain ⟨_, _, _, rfl, startSame, stopSame, extentSame⟩ := (slice_same_iff _ _ _ _).1 equal
      obtain ⟨extentValue, startValue, stopValue, extentOk, startOk, stopOk, length⟩ :=
        (eval_slice_ok_iff _ _ _ _).1 firstOk
      rw [tidy, Bool.and_eq_true, Bool.and_eq_true, tidy_bound_iff, tidy_bound_iff] at tidied
      obtain ⟨⟨extentTidy, startTidy⟩, stopTidy⟩ := tidied
      exact (eval_slice_ok_iff _ _ _ _).2 ⟨extentValue, startValue, stopValue,
        extentIh _ _ extentTidy extentSame extentOk,
        eval_bound_of_same (fun given member other number => startIh given member other number
          (startTidy given member)) startSame startOk,
        eval_bound_of_same (fun given member other number => stopIh given member other number
          (stopTidy given member)) stopSame stopOk, length⟩

/-- What dropping repetitions keeps: different expressions, one for each that was there. -/
theorem fold_add_unique (operands kept : List Scalar)
    (different : kept.Pairwise fun left right => left.same right = false) :
    (operands.foldl addUnique kept).Pairwise (fun left right => left.same right = false) ∧
      (∀ operand ∈ operands.foldl addUnique kept, operand ∈ kept ∨ operand ∈ operands) ∧
      (∀ operand ∈ kept, operand ∈ operands.foldl addUnique kept) ∧
      ∀ operand ∈ operands, ∃ first ∈ operands.foldl addUnique kept,
        first.same operand = true := by
  induction operands generalizing kept with
  | nil => simp [different]
  | cons next rest ih =>
      rw [List.foldl_cons]
      unfold addUnique at ih ⊢
      split_ifs with found
      · obtain ⟨pairwise, source, keeps, represented⟩ := ih kept different
        refine ⟨pairwise, fun operand member => ?_, keeps, ?_⟩
        · rcases source operand member with early | late
          · exact Or.inl early
          · exact Or.inr (by simp [late])
        · intro operand member
          rcases List.mem_cons.1 member with rfl | later
          · obtain ⟨first, firstMember, equal⟩ := List.any_eq_true.1 found
            exact ⟨first, keeps first firstMember, equal⟩
          · exact represented operand later
      · have longer : (kept ++ [next]).Pairwise fun left right => left.same right = false := by
          rw [List.pairwise_append]
          refine ⟨different, List.pairwise_singleton _ _, ?_⟩
          intro first firstMember last lastMember
          rw [List.mem_singleton.1 lastMember]
          simp only [List.any_eq_true, not_exists, not_and, Bool.not_eq_true] at found
          exact found first firstMember
        obtain ⟨pairwise, source, keeps, represented⟩ := ih (kept ++ [next]) longer
        refine ⟨pairwise, fun operand member => ?_, fun operand member => keeps operand (by simp [member]), ?_⟩
        · rcases source operand member with early | late
          · rcases List.mem_append.1 early with old | new
            · exact Or.inl old
            · exact Or.inr (by simp [List.mem_singleton.1 new])
          · exact Or.inr (by simp [late])
        · intro operand member
          rcases List.mem_cons.1 member with rfl | later
          · exact ⟨operand, keeps operand (by simp), same_refl operand⟩
          · exact represented operand later

theorem mem_of_mem_unique {operands : List Scalar} {operand : Scalar}
    (member : operand ∈ unique operands) : operand ∈ operands := by
  obtain ⟨_, source, _, _⟩ := fold_add_unique operands [] List.Pairwise.nil
  rcases source operand member with none | found
  · exact absurd none List.not_mem_nil
  · exact found

theorem exists_same_of_mem (operands : List Scalar) {operand : Scalar} (member : operand ∈ operands) :
    ∃ first ∈ unique operands, first.same operand = true := by
  obtain ⟨_, _, _, represented⟩ := fold_add_unique operands [] List.Pairwise.nil
  exact represented operand member

theorem unique_distinct (operands : List Scalar) : distinct (unique operands) = true := by
  rw [distinct_iff]
  exact (fold_add_unique operands [] List.Pairwise.nil).1

theorem unique_of_distinct (operands : List Scalar) (different : distinct operands = true) :
    unique operands = operands := by
  rw [distinct_iff] at different
  induction operands using List.reverseRecOn with
  | nil => rfl
  | append_singleton before last ih =>
      obtain ⟨beforeDifferent, _, lastDifferent⟩ := List.pairwise_append.1 different
      have kept := ih beforeDifferent
      unfold unique at kept ⊢
      rw [List.foldl_append, kept]
      change addUnique before last = before ++ [last]
      rw [addUnique, if_neg]
      simp only [List.any_eq_true, not_exists, not_and, Bool.not_eq_true]
      exact fun first member => lastDifferent first member last (by simp)

theorem chosen_unique {before : Decimal → Decimal → Prop} {operands : List Scalar} {value : Decimal}
    (tidied : ∀ operand ∈ operands, operand.tidy = true)
    (chosen : Chosen before bindings operands value) :
    Chosen before bindings (unique operands) value := by
  constructor
  · intro operand member
    exact chosen.all operand (mem_of_mem_unique member)
  · obtain ⟨operand, member, operandOk⟩ := chosen.one
    obtain ⟨first, firstMember, equal⟩ := exists_same_of_mem operands member
    obtain ⟨number, numberOk, _⟩ := chosen.all first (mem_of_mem_unique firstMember)
    have same := eval_of_same first operand number (tidied first (mem_of_mem_unique firstMember))
      equal numberOk
    rw [operandOk, Except.ok.injEq] at same
    subst same
    exact ⟨first, firstMember, numberOk⟩

theorem chosen_unique_iff {before : Decimal → Decimal → Prop} {operands : List Scalar}
    {value : Decimal} (tidied : ∀ operand ∈ operands, operand.tidy = true) :
    Chosen before bindings (unique operands) value ↔ Chosen before bindings operands value := by
  refine ⟨fun chosen => ⟨fun operand member => ?_, ?_⟩, chosen_unique tidied⟩
  · obtain ⟨first, firstMember, equal⟩ := exists_same_of_mem operands member
    obtain ⟨number, numberOk, least⟩ := chosen.all first firstMember
    exact ⟨number, eval_of_same first operand number
      (tidied first (mem_of_mem_unique firstMember)) equal numberOk, least⟩
  · obtain ⟨operand, member, operandOk⟩ := chosen.one
    exact ⟨operand, mem_of_mem_unique member, operandOk⟩

end Analog.Scalar
