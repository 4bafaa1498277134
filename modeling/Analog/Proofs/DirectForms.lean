import Analog.Proofs.AlikeScalars

/-!
# Canonical forms of scalars without a memory

The canonical form of a scalar can be worked out with nothing remembered. A simple scalar is
its own form, and equal scalars have equal forms.
-/

set_option autoImplicit false

namespace Analog.Canonical

open Scalar

mutual

/-- The canonical form of a scalar, worked out with nothing remembered. -/
def direct : Scalar → Outcome Scalar
  | .literal value => .ok (.literal value)
  | .variable name => .ok (.variable name)
  | .assigned name value => .ok (.assigned name value)
  | .negative operand => do
    let operand' ← direct operand
    return negative operand'
  | .add left right => do
    let left' ← direct left
    let right' ← direct right
    return sum left' right'
  | .mul left right => do
    let left' ← direct left
    let right' ← direct right
    return product left' right'
  | .div left right => do
    let left' ← direct left
    let right' ← direct right
    quotient (fun _ => (Scalar.div left right).text) left' right'
  | .min operands => do
    let operands' ← directAll operands
    minimum (fun _ => (Scalar.min operands).text) operands'
  | .max operands => do
    let operands' ← directAll operands
    maximum (fun _ => (Scalar.max operands).text) operands'
  | .slice extent start stop => do
    let extent' ← direct extent
    let start' ← directBound start
    let stop' ← directBound stop
    slice (fun _ => (Scalar.slice extent start stop).text) extent' ⟨start', stop'⟩

def directAll : List Scalar → Outcome (List Scalar)
  | [] => .ok []
  | operand :: rest => do
    let operand' ← direct operand
    let rest' ← directAll rest
    return operand' :: rest'

def directBound : Option Scalar → Outcome (Option Scalar)
  | none => .ok none
  | some bound => do
    let bound' ← direct bound
    return some bound'

end

theorem direct_all_ok_iff (operands results : List Scalar) :
    directAll operands = .ok results ↔
      List.Forall₂ (fun operand result => direct operand = .ok result) operands results := by
  rw [← Outcome.mapM_ok_iff]
  have mapped : directAll operands = operands.mapM direct := by
    induction operands with
    | nil => rfl
    | cons operand rest ih => rw [directAll, List.mapM_cons, ih]
  rw [mapped]

theorem direct_bound_ok_iff (bound result : Option Scalar) :
    directBound bound = .ok result ↔
      Option.Rel (fun given form => direct given = .ok form) bound result := by
  cases bound with
  | none => cases result <;> simp [directBound]
  | some given =>
      rw [directBound, Outcome.bind_ok_iff]
      cases result <;> simp

theorem direct_of_simple (scalar : Scalar) (simple : scalar.Simple) :
    direct scalar = .ok scalar := by
  have all : ∀ operands : List Scalar, (∀ operand ∈ operands, direct operand = .ok operand) →
      directAll operands = .ok operands := fun operands each =>
    (direct_all_ok_iff _ _).2 (List.forall₂_same.2 each)
  have bound : ∀ given : Option Scalar, (∀ one ∈ given, direct one = .ok one) →
      directBound given = .ok given := by
    rintro (_ | given) each
    · rfl
    · exact (direct_bound_ok_iff _ _).2 (.some (each given rfl))
  induction scalar using Scalar.parts_induction with
  | literal value => rfl
  | named name => rfl
  | assigned name value => rfl
  | negative operand ih =>
      obtain ⟨reduced, operandSimple⟩ := (negative_simple_iff _).1 simple
      rw [direct, ih operandSimple, Outcome.ok_bind, negative_reduced reduced]
      rfl
  | add left right leftIh rightIh =>
      obtain ⟨reduced, leftSimple, rightSimple⟩ := (add_simple_iff _ _).1 simple
      rw [direct, leftIh leftSimple, rightIh rightSimple, Outcome.ok_bind, Outcome.ok_bind,
        sum_reduced reduced]
      rfl
  | mul left right leftIh rightIh =>
      obtain ⟨reduced, leftSimple, rightSimple⟩ := (mul_simple_iff _ _).1 simple
      rw [direct, leftIh leftSimple, rightIh rightSimple, Outcome.ok_bind, Outcome.ok_bind,
        product_reduced reduced]
      rfl
  | div left right leftIh rightIh =>
      obtain ⟨reduced, leftSimple, rightSimple⟩ := (div_simple_iff _ _).1 simple
      rw [direct, leftIh leftSimple, rightIh rightSimple, Outcome.ok_bind, Outcome.ok_bind,
        quotient_reduced _ reduced]
  | min operands ih =>
      obtain ⟨gathered, each⟩ := (min_simple_iff _).1 simple
      rw [direct, all operands fun operand member => ih operand member (each operand member),
        Outcome.ok_bind, minimum_reduced _ gathered]
  | max operands ih =>
      obtain ⟨gathered, each⟩ := (max_simple_iff _).1 simple
      rw [direct, all operands fun operand member => ih operand member (each operand member),
        Outcome.ok_bind, maximum_reduced _ gathered]
  | slice extent start stop extentIh startIh stopIh =>
      obtain ⟨reduced, extentSimple, startSimple, stopSimple⟩ := (slice_simple_iff _ _ _).1 simple
      rw [direct, extentIh extentSimple,
        bound start fun given member => startIh given member (startSimple given member),
        bound stop fun given member => stopIh given member (stopSimple given member),
        Outcome.ok_bind, Outcome.ok_bind, Outcome.ok_bind, slice_reduced _ reduced]

/-- A failure names its subject, and a success does not depend on it. -/
theorem quotient_subject {subject other : Unit → String} {left right result : Scalar}
    (made : quotient subject left right = .ok result) :
    quotient other left right = .ok result := by
  have notZero := (quotient_cases made).1
  unfold quotient at made ⊢
  rwa [notZero, if_neg (by simp)] at made ⊢

theorem minimum_subject {subject other : Unit → String} {operands : List Scalar} {result : Scalar}
    (made : minimum subject operands = .ok result) : minimum other operands = .ok result := by
  unfold minimum at made ⊢
  split_ifs at made ⊢
  exact made

theorem maximum_subject {subject other : Unit → String} {operands : List Scalar} {result : Scalar}
    (made : maximum subject operands = .ok result) : maximum other operands = .ok result := by
  unfold maximum at made ⊢
  split_ifs at made ⊢
  exact made

theorem slice_subject {subject other : Unit → String} {extent result : Scalar} {interval : Interval}
    (made : slice subject extent interval = .ok result) :
    slice other extent interval = .ok result := by
  unfold slice at made ⊢
  split_ifs at made ⊢
  · exact made
  · split at made
    · simpa only [Outcome.bind_ok_iff, Outcome.blame_ok_iff] using made
    · exact made

theorem Agree.result {first second : Outcome Scalar} {result : Scalar} (agree : Agree first second)
    (made : second = .ok result) : ∃ other, first = .ok other ∧ Alike other result := by
  cases agree with
  | ok alike =>
      cases made
      exact ⟨_, rfl, alike⟩
  | error => cases made

theorem Agree.failure {first second : Outcome Scalar} {failure : Failure}
    (agree : Agree first second) (failed : second = .error failure) : first = .error failure := by
  cases agree with
  | ok => cases failed
  | error => exact failed

/-- What is known of a scalar if all its equals with direct forms have equals of their forms. -/
def Shared (scalar : Scalar) : Prop :=
  ∀ other form, Alike scalar other → direct other = .ok form →
    ∃ shared, direct scalar = .ok shared ∧ Alike shared form

theorem operands_shared {operands others forms : List Scalar}
    (each : ∀ operand ∈ operands, Shared operand) (matched : Matched operands others)
    (made : directAll others = .ok forms) :
    ∃ shared, directAll operands = .ok shared ∧ Matched shared forms := by
  rw [direct_all_ok_iff] at made
  have exist : ∀ operand ∈ operands, ∃ form, direct operand = .ok form := by
    intro operand member
    obtain ⟨other, otherMember, alike⟩ := matched.forward operand member
    obtain ⟨form, _, otherMade⟩ := Outcome.target_of_mem made otherMember
    obtain ⟨shared, sharedMade, _⟩ := each operand member other form alike otherMade
    exact ⟨shared, sharedMade⟩
  obtain ⟨shared, sharedMade⟩ := Outcome.related_of_each exist
  refine ⟨shared, (direct_all_ok_iff _ _).2 sharedMade, fun one member => ?_, fun form member => ?_⟩
  · obtain ⟨operand, operandMember, oneMade⟩ := Outcome.source_of_mem sharedMade member
    obtain ⟨other, otherMember, alike⟩ := matched.forward operand operandMember
    obtain ⟨form, formMember, otherMade⟩ := Outcome.target_of_mem made otherMember
    obtain ⟨found, foundMade, forms⟩ := each operand operandMember other form alike otherMade
    rw [oneMade, Except.ok.injEq] at foundMade
    exact ⟨form, formMember, foundMade ▸ forms⟩
  · obtain ⟨other, otherMember, otherMade⟩ := Outcome.source_of_mem made member
    obtain ⟨operand, operandMember, alike⟩ := matched.backward other otherMember
    obtain ⟨one, oneMember, oneMade⟩ := Outcome.target_of_mem sharedMade operandMember
    obtain ⟨found, foundMade, forms⟩ := each operand operandMember other form alike otherMade
    rw [oneMade, Except.ok.injEq] at foundMade
    exact ⟨one, oneMember, foundMade ▸ forms⟩

theorem bound_shared {bound other form : Option Scalar} (each : ∀ given ∈ bound, Shared given)
    (alike : BoundAlike bound other) (made : directBound other = .ok form) :
    ∃ shared, directBound bound = .ok shared ∧ BoundAlike shared form := by
  cases alike with
  | none =>
      cases made
      exact ⟨none, rfl, .none⟩
  | some alike =>
      rw [direct_bound_ok_iff] at made
      cases made with
      | some otherMade =>
          obtain ⟨shared, sharedMade, forms⟩ := each _ rfl _ _ alike otherMade
          exact ⟨some shared, (direct_bound_ok_iff _ _).2 (.some sharedMade), .some forms⟩

theorem direct_shared (scalar : Scalar) : Shared scalar := by
  intro other form alike made
  induction scalar using Scalar.parts_induction generalizing other form with
  | literal value =>
      obtain rfl := (literal_same_iff _ _).1 alike.equal
      cases made
      exact ⟨_, rfl, alike⟩
  | named name =>
      obtain rfl := (variable_same_iff _ _).1 alike.equal
      cases made
      exact ⟨_, rfl, alike⟩
  | assigned name value =>
      obtain rfl := (assigned_same_iff _ _ _).1 alike.equal
      cases made
      exact ⟨_, rfl, alike⟩
  | negative operand ih =>
      obtain ⟨inner, rfl, inners⟩ := alike.negative
      rw [direct, Outcome.return_ok_iff] at made
      obtain ⟨inner', innerMade, rfl⟩ := made
      obtain ⟨operand', operandMade, operands⟩ := ih _ _ inners innerMade
      refine ⟨negative operand', ?_, negative_alike operands⟩
      rw [direct, operandMade]
      rfl
  | add left right leftIh rightIh =>
      obtain ⟨otherLeft, otherRight, rfl, lefts, rights⟩ := alike.add
      simp only [direct, Outcome.bind_ok_iff, Outcome.pure_ok_iff] at made
      obtain ⟨otherLeft', otherLeftMade, otherRight', otherRightMade, rfl⟩ := made
      obtain ⟨left', leftMade, leftForms⟩ := leftIh _ _ lefts otherLeftMade
      obtain ⟨right', rightMade, rightForms⟩ := rightIh _ _ rights otherRightMade
      refine ⟨sum left' right', ?_, sum_alike leftForms rightForms⟩
      rw [direct, leftMade, rightMade]
      rfl
  | mul left right leftIh rightIh =>
      obtain ⟨otherLeft, otherRight, rfl, lefts, rights⟩ := alike.mul
      simp only [direct, Outcome.bind_ok_iff, Outcome.pure_ok_iff] at made
      obtain ⟨otherLeft', otherLeftMade, otherRight', otherRightMade, rfl⟩ := made
      obtain ⟨left', leftMade, leftForms⟩ := leftIh _ _ lefts otherLeftMade
      obtain ⟨right', rightMade, rightForms⟩ := rightIh _ _ rights otherRightMade
      refine ⟨product left' right', ?_, product_alike leftForms rightForms⟩
      rw [direct, leftMade, rightMade]
      rfl
  | div left right leftIh rightIh =>
      obtain ⟨otherLeft, otherRight, rfl, lefts, rights⟩ := alike.div
      simp only [direct, Outcome.bind_ok_iff] at made
      obtain ⟨otherLeft', otherLeftMade, otherRight', otherRightMade, divided⟩ := made
      obtain ⟨left', leftMade, leftForms⟩ := leftIh _ _ lefts otherLeftMade
      obtain ⟨right', rightMade, rightForms⟩ := rightIh _ _ rights otherRightMade
      rw [direct, leftMade, rightMade, Outcome.ok_bind, Outcome.ok_bind]
      exact (quotient_agree _ leftForms rightForms).result (quotient_subject divided)
  | min operands ih =>
      obtain ⟨others, rfl, _, _, matched⟩ := (min_alike_iff _ _).1 alike
      rw [direct, Outcome.bind_ok_iff] at made
      obtain ⟨forms, othersMade, chosen⟩ := made
      obtain ⟨shared, sharedMade, forms⟩ :=
        operands_shared (fun operand member => ih operand member) matched othersMade
      rw [direct, sharedMade, Outcome.ok_bind]
      exact (minimum_agree _ forms).result (minimum_subject chosen)
  | max operands ih =>
      obtain ⟨others, rfl, _, _, matched⟩ := (max_alike_iff _ _).1 alike
      rw [direct, Outcome.bind_ok_iff] at made
      obtain ⟨forms, othersMade, chosen⟩ := made
      obtain ⟨shared, sharedMade, forms⟩ :=
        operands_shared (fun operand member => ih operand member) matched othersMade
      rw [direct, sharedMade, Outcome.ok_bind]
      exact (maximum_agree _ forms).result (maximum_subject chosen)
  | slice extent start stop extentIh startIh stopIh =>
      obtain ⟨_, _, _, rfl, extents, starts, stops⟩ := alike.slice
      simp only [direct, Outcome.bind_ok_iff] at made
      obtain ⟨otherExtent', otherExtentMade, otherStart', otherStartMade, otherStop', otherStopMade,
        cut⟩ := made
      obtain ⟨extent', extentMade, extentForms⟩ := extentIh _ _ extents otherExtentMade
      obtain ⟨start', startMade, startForms⟩ :=
        bound_shared (fun given member => startIh given member) starts otherStartMade
      obtain ⟨stop', stopMade, stopForms⟩ :=
        bound_shared (fun given member => stopIh given member) stops otherStopMade
      rw [direct, extentMade, startMade, stopMade, Outcome.ok_bind, Outcome.ok_bind, Outcome.ok_bind]
      exact (slice_agree _ extentForms startForms stopForms).result (slice_subject cut)

end Analog.Canonical
