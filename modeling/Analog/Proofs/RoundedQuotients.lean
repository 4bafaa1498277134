import Analog.Proofs.DecimalRing

/-!
# Rounded quotients

A quotient that is rounded stays on its side of every number that needs no more digits than
quotients have. So nothing is lost where such a number is the quotient.
-/

set_option autoImplicit false

namespace Analog.Decimal

theorem nearest_le {num bound : Int} {den : Nat} (positive : 0 < den) (below : num ≤ bound * den) :
    nearest num den ≤ bound := by
  unfold nearest
  split_ifs with negative
  · rw [neg_le]
    push_cast
    rw [Int.le_ediv_iff_mul_le (by positivity), abs_of_neg negative]
    nlinarith
  · push_cast
    rw [← Int.lt_add_one_iff, Int.ediv_lt_iff_lt_mul (by positivity),
      abs_of_nonneg (not_lt.1 negative)]
    have wide : (0 : Int) < den := by exact_mod_cast positive
    nlinarith

theorem le_nearest {num bound : Int} {den : Nat} (positive : 0 < den) (above : bound * den ≤ num) :
    bound ≤ nearest num den := by
  unfold nearest
  have wide : (0 : Int) < den := by exact_mod_cast positive
  split_ifs with negative
  · rw [le_neg]
    push_cast
    rw [← Int.lt_add_one_iff, Int.ediv_lt_iff_lt_mul (by positivity), abs_of_neg negative]
    nlinarith
  · push_cast
    rw [Int.le_ediv_iff_mul_le (by positivity), abs_of_nonneg (not_lt.1 negative)]
    nlinarith

/-- A quotient by a positive number is a rounded integer over a power of ten. -/
theorem div_positive {left right : Decimal} (positive : 0 < right) :
    ∃ num : Int, ∃ den : Nat, 0 < den ∧
      left.div? right = some (ofScaled (nearest num den) quotientPlaces) ∧
      (num : ℚ) / den = left.toRat / right.toRat * 10 ^ quotientPlaces := by
  have coeffPositive : 0 < right.coeff := of_decide_eq_true ((is_positive_iff right).2 positive)
  refine ⟨_, _, ?_, by rw [div?, if_neg (by simpa using positive.ne')], ?_⟩
  · exact Nat.mul_pos (by omega) (ten_to_pos _)
  · rw [Int.sign_eq_one_of_pos coeffPositive, mul_one]
    push_cast
    rw [Nat.cast_natAbs, abs_of_pos coeffPositive, ten_to_cast, ten_to_cast]
    unfold toRat
    have nonzero : (right.coeff : ℚ) ≠ 0 := by exact_mod_cast coeffPositive.ne'
    field_simp
    ring

/-- A number with no more digits than quotients have is an integer over their power of ten. -/
theorem to_rat_of_digits {value : Decimal} (digits : value.scale ≤ quotientPlaces) :
    value.toRat = value.raised quotientPlaces / 10 ^ quotientPlaces := by
  rw [raised_value value _ digits]
  field_simp

theorem div_le {left right bound quotient : Decimal} (positive : 0 < right)
    (digits : bound.scale ≤ quotientPlaces) (below : left ≤ bound * right)
    (divides : left.div? right = some quotient) : quotient ≤ bound := by
  obtain ⟨num, den, denPositive, same, ratio⟩ := @div_positive left right positive
  rw [same, Option.some.injEq] at divides
  subst divides
  rw [le_iff_to_rat, to_rat_mul] at below
  rw [lt_iff_to_rat, to_rat_zero] at positive
  have wide : (0 : ℚ) < den := by exact_mod_cast denPositive
  have reached : num ≤ bound.raised quotientPlaces * den := by
    rw [← Int.cast_le (R := ℚ)]
    push_cast
    rw [← div_le_iff₀ wide, ratio, raised_value bound _ digits]
    gcongr
    rwa [div_le_iff₀ positive]
  rw [le_iff_to_rat, to_rat_of_scaled, to_rat_of_digits digits]
  gcongr
  exact nearest_le denPositive reached

theorem le_div {left right bound quotient : Decimal} (positive : 0 < right)
    (digits : bound.scale ≤ quotientPlaces) (above : bound * right ≤ left)
    (divides : left.div? right = some quotient) : bound ≤ quotient := by
  obtain ⟨num, den, denPositive, same, ratio⟩ := @div_positive left right positive
  rw [same, Option.some.injEq] at divides
  subst divides
  rw [le_iff_to_rat, to_rat_mul] at above
  rw [lt_iff_to_rat, to_rat_zero] at positive
  have wide : (0 : ℚ) < den := by exact_mod_cast denPositive
  have reached : bound.raised quotientPlaces * den ≤ num := by
    rw [← Int.cast_le (R := ℚ)]
    push_cast
    rw [← le_div_iff₀ wide, ratio, raised_value bound _ digits]
    gcongr
    rwa [le_div_iff₀ positive]
  rw [le_iff_to_rat, to_rat_of_scaled, to_rat_of_digits digits]
  gcongr
  exact le_nearest denPositive reached

theorem cancel_scale_le (coeff : Int) (scale : Nat) : (cancel coeff scale).2 ≤ scale := by
  induction scale generalizing coeff with
  | zero => exact le_rfl
  | succ scale ih =>
      unfold cancel
      split_ifs
      · exact (ih _).trans (Nat.le_succ _)
      · exact le_rfl

/-- A difference has no more digits than the numbers it is made of. -/
theorem sub_scale_le (left right : Decimal) :
    (left - right).scale ≤ max left.scale right.scale := by
  have negated : right.neg.scale ≤ right.scale := cancel_scale_le _ _
  exact (cancel_scale_le _ _).trans (max_le_max le_rfl negated)

/-- A number with no more digits than quotients have is found again when a multiple of it is
divided. -/
theorem mul_div_cancel {value right : Decimal} (positive : 0 < right)
    (digits : value.scale ≤ quotientPlaces) : (value * right).div? right = some value := by
  obtain ⟨quotient, divides⟩ := div_of_ne_zero (value * right) right positive.ne'
  rw [divides, le_antisymm (div_le positive digits le_rfl divides)
    (le_div positive digits le_rfl divides)]

theorem le_nearest_iff {num bound : Int} {den : Nat} (nonneg : 0 ≤ num) (positive : 0 < den) :
    bound ≤ nearest num den ↔ (2 * bound - 1) * den ≤ 2 * num := by
  unfold nearest
  rw [if_neg (not_lt.2 nonneg)]
  push_cast
  rw [abs_of_nonneg nonneg, Int.le_ediv_iff_mul_le (by positivity)]
  constructor <;> intro reached <;> linarith

def halfPlace : Decimal := ofScaled 5 (quotientPlaces + 1)

theorem half_place_pos : 0 < halfPlace := by decide

theorem two_mul_half_place : 2 * halfPlace.toRat * 10 ^ quotientPlaces = 1 := by
  rw [halfPlace, to_rat_of_scaled, pow_succ]
  field_simp
  norm_num

/-- A quotient reaches a number with no more digits than quotients have exactly if at most half
of the last place is missing. -/
theorem le_div_iff {left right bound quotient : Decimal} (nonneg : 0 ≤ left) (positive : 0 < right)
    (digits : bound.scale ≤ quotientPlaces) (divides : left.div? right = some quotient) :
    bound ≤ quotient ↔ bound * right ≤ left + halfPlace * right := by
  obtain ⟨num, den, denPositive, same, ratio⟩ := @div_positive left right positive
  rw [same, Option.some.injEq] at divides
  subst divides
  rw [le_iff_to_rat, to_rat_zero] at nonneg
  rw [lt_iff_to_rat, to_rat_zero] at positive
  have wide : (0 : ℚ) < den := by exact_mod_cast denPositive
  have power : (0 : ℚ) < 10 ^ quotientPlaces := by positivity
  have numNonneg : 0 ≤ num := by
    have numerator : (0 : ℚ) ≤ num := by
      rw [← div_mul_cancel₀ (num : ℚ) wide.ne', ratio]
      exact mul_nonneg (mul_nonneg (div_nonneg nonneg positive.le) power.le) wide.le
    exact_mod_cast numerator
  rw [le_iff_to_rat, to_rat_of_scaled, to_rat_of_digits digits, div_le_div_iff_of_pos_right power,
    Int.cast_le, le_nearest_iff numNonneg denPositive, ← Int.cast_le (R := ℚ), le_iff_to_rat,
    to_rat_add, to_rat_mul, to_rat_mul]
  push_cast
  rw [raised_value bound _ digits]
  have whole := two_mul_half_place
  generalize halfPlace.toRat = half at *
  calc (2 * (bound.toRat * 10 ^ quotientPlaces) - 1) * (den : ℚ) ≤ 2 * num
      ↔ 2 * (bound.toRat * 10 ^ quotientPlaces) - 1 ≤ 2 * (num / den : ℚ) := by
        rw [← mul_div_assoc, le_div_iff₀ wide]
    _ ↔ (bound.toRat - half) * (2 * 10 ^ quotientPlaces) ≤
          left.toRat / right.toRat * (2 * 10 ^ quotientPlaces) := by
        rw [ratio]
        constructor <;> intro reached <;> linarith
    _ ↔ bound.toRat * right.toRat ≤ left.toRat + half * right.toRat := by
        rw [mul_le_mul_iff_left₀ (by positivity), le_div_iff₀ positive]
        constructor <;> intro reached <;> linarith

/-- What lies below one half is rounded away, and nothing else that is not negative. -/
theorem nearest_eq_zero_iff {num : Int} {den : Nat} (nonneg : 0 ≤ num) (positive : 0 < den) :
    nearest num den = 0 ↔ 2 * num < den := by
  unfold nearest
  rw [if_neg (not_lt.2 nonneg), Int.natCast_eq_zero, Nat.div_eq_zero_iff]
  omega

/-- A quotient is rounded away exactly if it is less than half of the last place. -/
theorem div_eq_zero_iff {left right : Decimal} (nonneg : 0 ≤ left) (positive : 0 < right) :
    left.div? right = some 0 ↔ left * ofInt (2 * 10 ^ quotientPlaces) < right := by
  obtain ⟨num, den, denPositive, same, ratio⟩ := @div_positive left right positive
  rw [le_iff_to_rat, to_rat_zero] at nonneg
  rw [lt_iff_to_rat, to_rat_zero] at positive
  have wide : (0 : ℚ) < den := by exact_mod_cast denPositive
  have numNonneg : 0 ≤ num := by
    have quotient : (0 : ℚ) ≤ num / den := by
      rw [ratio]
      exact mul_nonneg (div_nonneg nonneg positive.le) (by positivity)
    have numerator : (0 : ℚ) ≤ num := by
      rw [← div_mul_cancel₀ (num : ℚ) wide.ne']
      exact mul_nonneg quotient wide.le
    exact_mod_cast numerator
  have zero : ofScaled (nearest num den) quotientPlaces = 0 ↔ nearest num den = 0 := by
    rw [← to_rat_injective.eq_iff, to_rat_of_scaled, to_rat_zero]
    simp
  rw [same, Option.some.injEq, zero, nearest_eq_zero_iff numNonneg denPositive, lt_iff_to_rat,
    to_rat_mul, to_rat_of_int, ← Int.cast_lt (R := ℚ)]
  push_cast
  calc (2 * (num : ℚ) < den) ↔ 2 * (num / den : ℚ) < 1 := by
        rw [← mul_div_assoc, div_lt_iff₀ wide, one_mul]
    _ ↔ left.toRat * (2 * 10 ^ quotientPlaces) / right.toRat < 1 := by
        rw [ratio]
        ring_nf
    _ ↔ left.toRat * (2 * 10 ^ quotientPlaces) < right.toRat := by
        rw [div_lt_iff₀ positive, one_mul]

end Analog.Decimal
