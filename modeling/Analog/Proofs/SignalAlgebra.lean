import Analog.Proofs.SignalRefinement

/-!
# Laws of signals

Negation, sums, factors and cuts of signals obey the expected laws, as refinements: one
side has all values of the other. Since signals are zero outside their durations, the laws
hold at every time, also where one operand of a sum has ended.
-/

set_option autoImplicit false

namespace Analog.Signal

variable {meaning left right : Signal} {factor other start stop duration value : Decimal}

theorem negate_value_iff (bounded : Bounded meaning) (time result : Decimal) :
    meaning.negate.value time = .ok result ↔
      ∃ inner, meaning.value time = .ok inner ∧ result = -inner := by
  unfold negate
  by_cases beyond : time < 0 ∨ meaning.duration < time
  · rw [within_outside beyond, bounded.silent time beyond]
    simp [eq_comm]
  · rw [not_or, not_lt, not_lt] at beyond
    rw [within_inside beyond.1 beyond.2, Outcome.bind_ok_iff]
    simp only [Outcome.pure_ok_iff, eq_comm (a := result)]

theorem scaled_value_iff (bounded : Bounded meaning) (time result : Decimal) :
    (meaning.scaled (.ok factor)).value time = .ok result ↔
      ∃ inner, meaning.value time = .ok inner ∧ result = factor * inner := by
  unfold scaled
  by_cases beyond : time < 0 ∨ meaning.duration < time
  · rw [within_outside beyond, bounded.silent time beyond]
    simp [eq_comm]
  · rw [not_or, not_lt, not_lt] at beyond
    rw [within_inside beyond.1 beyond.2, Outcome.ok_bind, Outcome.bind_ok_iff]
    simp only [Outcome.pure_ok_iff, eq_comm (a := result)]

theorem plus_value_iff (leftBounded : Bounded left) (rightBounded : Bounded right)
    (time result : Decimal) :
    (left.plus right).value time = .ok result ↔
      ∃ first second, left.value time = .ok first ∧ right.value time = .ok second ∧
        result = first + second := by
  unfold plus
  by_cases beyond : time < 0 ∨ max left.duration right.duration < time
  · have leftBeyond : time < 0 ∨ left.duration < time :=
      beyond.imp_right fun late => (le_max_left _ _).trans_lt late
    have rightBeyond : time < 0 ∨ right.duration < time :=
      beyond.imp_right fun late => (le_max_right _ _).trans_lt late
    rw [within_outside beyond, leftBounded.silent time leftBeyond,
      rightBounded.silent time rightBeyond]
    simp [eq_comm]
  · rw [not_or, not_lt, not_lt] at beyond
    rw [within_inside beyond.1 beyond.2]
    simp only [Outcome.bind_ok_iff, Outcome.pure_ok_iff]
    constructor
    · rintro ⟨second, secondOk, first, firstOk, rfl⟩
      exact ⟨first, second, firstOk, secondOk, rfl⟩
    · rintro ⟨first, second, firstOk, secondOk, rfl⟩
      exact ⟨second, secondOk, first, firstOk, rfl⟩

@[simp] theorem duration_negate : meaning.negate.duration = meaning.duration := rfl

@[simp] theorem duration_scaled (given : Outcome Decimal) :
    (meaning.scaled given).duration = meaning.duration := rfl

@[simp] theorem duration_plus :
    (left.plus right).duration = max left.duration right.duration := rfl

@[simp] theorem duration_cut : (meaning.cut start stop).duration = stop - start := rfl

theorem negate_bounded (bounded : Bounded meaning) : Bounded meaning.negate :=
  within_bounded bounded.nonneg

theorem scaled_bounded (given : Outcome Decimal) (bounded : Bounded meaning) :
    Bounded (meaning.scaled given) :=
  within_bounded bounded.nonneg

theorem scaled_zero : Refines (meaning.scaled (.ok 0)) (within meaning.duration fun _ => .ok 0) := by
  apply Refines.of_inside
  intro time _ _ result found
  rw [Outcome.ok_bind] at found
  obtain ⟨inner, _, same⟩ := (Outcome.bind_ok_iff _ _ _).1 found
  rw [Outcome.pure_ok_iff, zero_mul] at same
  rw [same]

theorem scaled_one (bounded : Bounded meaning) : Alike (meaning.scaled (.ok 1)) meaning := by
  constructor
  · refine ⟨rfl, fun time result found => ?_⟩
    obtain ⟨inner, innerOk, rfl⟩ := (scaled_value_iff bounded _ _).1 found
    rw [one_mul]
    exact innerOk
  · refine ⟨rfl, fun time result found => ?_⟩
    exact (scaled_value_iff bounded _ _).2 ⟨result, found, (one_mul result).symm⟩

theorem scaled_scaled (bounded : Bounded meaning) :
    Refines ((meaning.scaled (.ok other)).scaled (.ok factor))
      (meaning.scaled (.ok (factor * other))) := by
  refine ⟨rfl, fun time result found => ?_⟩
  obtain ⟨middle, middleOk, rfl⟩ := (scaled_value_iff (scaled_bounded _ bounded) _ _).1 found
  obtain ⟨inner, innerOk, rfl⟩ := (scaled_value_iff bounded _ _).1 middleOk
  exact (scaled_value_iff bounded _ _).2 ⟨inner, innerOk, by rw [mul_assoc]⟩

theorem scaled_constant :
    Refines ((within duration fun _ => .ok value).scaled (.ok factor))
      (within duration fun _ => .ok (factor * value)) := by
  apply Refines.of_inside
  intro time nonneg reached result found
  rw [duration_within] at reached
  rw [Outcome.ok_bind, within_inside nonneg reached] at found
  exact found

theorem negate_negate (bounded : Bounded meaning) : Refines meaning.negate.negate meaning := by
  refine ⟨rfl, fun time result found => ?_⟩
  obtain ⟨middle, middleOk, rfl⟩ := (negate_value_iff (negate_bounded bounded) _ _).1 found
  obtain ⟨inner, innerOk, rfl⟩ := (negate_value_iff bounded _ _).1 middleOk
  rw [neg_neg]
  exact innerOk

theorem negate_constant :
    Refines (within duration fun _ => .ok value).negate (within duration fun _ => .ok (-value)) := by
  apply Refines.of_inside
  intro time nonneg reached result found
  rw [duration_within] at reached
  rw [within_inside nonneg reached] at found
  exact found

theorem negate_scaled (bounded : Bounded meaning) :
    Refines (meaning.scaled (.ok factor)).negate (meaning.scaled (.ok (-factor))) := by
  refine ⟨rfl, fun time result found => ?_⟩
  obtain ⟨middle, middleOk, rfl⟩ := (negate_value_iff (scaled_bounded _ bounded) _ _).1 found
  obtain ⟨inner, innerOk, rfl⟩ := (scaled_value_iff bounded _ _).1 middleOk
  exact (scaled_value_iff bounded _ _).2 ⟨inner, innerOk, by rw [neg_mul]⟩

theorem plus_comm (leftBounded : Bounded left) (rightBounded : Bounded right) :
    Refines (left.plus right) (right.plus left) := by
  refine ⟨max_comm _ _, fun time result found => ?_⟩
  obtain ⟨first, second, firstOk, secondOk, rfl⟩ :=
    (plus_value_iff leftBounded rightBounded _ _).1 found
  exact (plus_value_iff rightBounded leftBounded _ _).2
    ⟨second, first, secondOk, firstOk, add_comm _ _⟩

/-- A signal that is zero and ends no later than another. -/
structure AddsNothing (meaning other : Signal) : Prop where
  zero : ∀ time, meaning.value time = .ok 0
  shorter : meaning.duration ≤ other.duration

theorem zero_adds_nothing (shorter : duration ≤ meaning.duration) :
    AddsNothing (within duration fun _ => .ok 0) meaning := by
  refine ⟨fun time => ?_, shorter⟩
  unfold within
  dsimp only
  split_ifs <;> rfl

theorem plus_redundant (leftBounded : Bounded left) (rightBounded : Bounded right)
    (nothing : AddsNothing left right) : Refines (left.plus right) right := by
  refine ⟨(max_eq_right nothing.shorter).symm, fun time result found => ?_⟩
  obtain ⟨first, second, firstOk, secondOk, rfl⟩ :=
    (plus_value_iff leftBounded rightBounded _ _).1 found
  rw [nothing.zero time, Except.ok.injEq] at firstOk
  rw [← firstOk, zero_add]
  exact secondOk

theorem plus_constant :
    Refines ((within duration fun _ => .ok value).plus (within duration fun _ => .ok other))
      (within duration fun _ => .ok (value + other)) := by
  unfold plus
  rw [duration_within, duration_within, max_self]
  apply Refines.of_inside
  intro time nonneg reached result found
  rw [within_inside nonneg reached, Outcome.ok_bind, within_inside nonneg reached] at found
  exact found

theorem plus_scaled_factor (leftBounded : Bounded left) (rightBounded : Bounded right) :
    Refines ((left.scaled (.ok factor)).plus (right.scaled (.ok factor)))
      ((left.plus right).scaled (.ok factor)) := by
  have sumBounded : Bounded (left.plus right) :=
    within_bounded (leftBounded.nonneg.trans (le_max_left _ _))
  refine ⟨rfl, fun time result found => ?_⟩
  obtain ⟨_, _, firstScaled, secondScaled, rfl⟩ :=
    (plus_value_iff (scaled_bounded _ leftBounded) (scaled_bounded _ rightBounded) _ _).1 found
  obtain ⟨first, firstOk, rfl⟩ := (scaled_value_iff leftBounded _ _).1 firstScaled
  obtain ⟨second, secondOk, rfl⟩ := (scaled_value_iff rightBounded _ _).1 secondScaled
  exact (scaled_value_iff sumBounded _ _).2 ⟨first + second,
    (plus_value_iff leftBounded rightBounded _ _).2 ⟨first, second, firstOk, secondOk, rfl⟩,
    (mul_add _ _ _).symm⟩

theorem plus_scaled_signal (leftBounded : Bounded left) (rightBounded : Bounded right)
    (alike : Alike left right) :
    Refines ((left.scaled (.ok factor)).plus (right.scaled (.ok other)))
      (left.scaled (.ok (factor + other))) := by
  refine ⟨?_, fun time result found => ?_⟩
  · rw [duration_plus, duration_scaled, duration_scaled, duration_scaled, alike.forth.lasts, max_self]
  · obtain ⟨_, _, firstScaled, secondScaled, rfl⟩ :=
      (plus_value_iff (scaled_bounded _ leftBounded) (scaled_bounded _ rightBounded) _ _).1 found
    obtain ⟨first, firstOk, rfl⟩ := (scaled_value_iff leftBounded _ _).1 firstScaled
    obtain ⟨second, secondOk, rfl⟩ := (scaled_value_iff rightBounded _ _).1 secondScaled
    have same := alike.forth.values time first firstOk
    rw [secondOk, Except.ok.injEq] at same
    exact (scaled_value_iff leftBounded _ _).2 ⟨first, firstOk, by rw [same, add_mul]⟩

theorem cut_all (bounded : Bounded meaning) : Refines (meaning.cut 0 meaning.duration) meaning := by
  apply Refines.of_bounded bounded (sub_zero _).symm
  intro time _ _ result found
  rw [add_zero] at found
  exact found

theorem cut_scaled (bounded : Bounded meaning) :
    Refines ((meaning.scaled (.ok factor)).cut start stop)
      ((meaning.cut start stop).scaled (.ok factor)) := by
  apply Refines.of_inside
  intro time nonneg reached result found
  obtain ⟨inner, innerOk, rfl⟩ := (scaled_value_iff bounded _ _).1 found
  unfold cut
  rw [Outcome.ok_bind, within_inside nonneg reached, innerOk]
  rfl

theorem cut_negate (bounded : Bounded meaning) :
    Refines (meaning.negate.cut start stop) (meaning.cut start stop).negate := by
  apply Refines.of_inside
  intro time nonneg reached result found
  obtain ⟨inner, innerOk, rfl⟩ := (negate_value_iff bounded _ _).1 found
  unfold cut
  rw [within_inside nonneg reached, innerOk]
  rfl

theorem cut_constant (startNonneg : 0 ≤ start) (stopReached : stop ≤ duration) :
    Refines ((within duration fun _ => .ok value).cut start stop)
      (within (stop - start) fun _ => .ok value) := by
  apply Refines.of_inside
  intro time nonneg reached result found
  rw [within_inside (add_nonneg nonneg startNonneg) (by linarith)] at found
  exact found

end Analog.Signal
