import Analog.Decimal
import Mathlib.Algebra.Order.Ring.Rat
import Mathlib.Algebra.Order.Group.Unbundled.Int
import Mathlib.Algebra.Order.Ring.InjSurj
import Mathlib.Tactic.FieldSimp
import Mathlib.Tactic.Linarith
import Mathlib.Tactic.NormNum
import Mathlib.Tactic.Ring

/-!
# Decimals as an ordered ring

Every decimal stands for a rational number, and different decimals stand for different
ones. Sums, products and comparisons are those of the rational numbers, so decimals form
an ordered commutative ring. Quotients are not part of it: they are rounded.
-/

set_option autoImplicit false

namespace Analog.Decimal

def toRat (value : Decimal) : ℚ := value.coeff / 10 ^ value.scale

theorem ten_to_cast (places : Nat) : ((tenTo places : Nat) : ℚ) = 10 ^ places := by
  unfold tenTo
  exact_mod_cast rfl

theorem ten_to_pos (places : Nat) : 0 < tenTo places := by
  unfold tenTo
  exact Nat.pow_pos (by decide)

theorem cancel_value (coeff : Int) (scale : Nat) :
    ((cancel coeff scale).1 : ℚ) / 10 ^ (cancel coeff scale).2 = coeff / 10 ^ scale := by
  induction scale generalizing coeff with
  | zero => simp [cancel]
  | succ scale ih =>
      unfold cancel
      split
      · rename_i multiple
        rw [ih]
        have split : coeff = 10 * (coeff / 10) := by omega
        have splitRat : (coeff : ℚ) = 10 * ((coeff / 10 : Int) : ℚ) := by
          exact_mod_cast split
        rw [splitRat, pow_succ]
        field_simp
      · rfl

theorem to_rat_of_scaled (coeff : Int) (scale : Nat) :
    (ofScaled coeff scale).toRat = coeff / 10 ^ scale :=
  cancel_value coeff scale

theorem to_rat_injective : Function.Injective toRat := by
  -- Over the larger scale one coefficient is a multiple of ten unless the scales agree.
  have equalScales : ∀ left right : Decimal, left.toRat = right.toRat →
      left.scale ≤ right.scale → left.scale = right.scale := by
    intro left right same ordered
    by_contra different
    have strict : left.scale < right.scale := by omega
    obtain ⟨gap, gapEq⟩ := Nat.exists_eq_add_of_lt strict
    have raised : (right.coeff : ℚ) = left.coeff * 10 ^ (gap + 1) := by
      unfold toRat at same
      rw [gapEq] at same
      field_simp at same
      rw [Nat.add_assoc, pow_add, mul_left_comm] at same
      exact (mul_left_cancel₀ (by positivity) same).symm
    have raisedInt : right.coeff = left.coeff * 10 ^ (gap + 1) := by
      exact_mod_cast raised
    rcases right.lowest with scaleZero | notMultiple
    · omega
    · apply notMultiple
      rw [raisedInt, pow_succ, ← mul_assoc]
      omega
  intro left right same
  have scales : left.scale = right.scale := by
    rcases Nat.le_total left.scale right.scale with ordered | ordered
    · exact equalScales left right same ordered
    · exact (equalScales right left same.symm ordered).symm
  have coeffs : (left.coeff : ℚ) = right.coeff := by
    unfold toRat at same
    rw [scales] at same
    have power : (10 : ℚ) ^ right.scale ≠ 0 := by positivity
    exact (div_left_inj' power).1 same
  cases left with
  | mk leftCoeff leftScale leftLowest =>
      cases right with
      | mk rightCoeff rightScale rightLowest =>
          simp only at scales coeffs
          subst scales
          have same : leftCoeff = rightCoeff := by exact_mod_cast coeffs
          subst same
          rfl

theorem raised_value (value : Decimal) (scale : Nat) (larger : value.scale ≤ scale) :
    (value.raised scale : ℚ) = value.toRat * 10 ^ scale := by
  unfold raised toRat
  push_cast
  rw [ten_to_cast]
  have power : (10 : ℚ) ^ scale = 10 ^ (scale - value.scale) * 10 ^ value.scale := by
    rw [← pow_add, Nat.sub_add_cancel larger]
  rw [power]
  field_simp

@[simp] theorem to_rat_add (left right : Decimal) :
    (left + right).toRat = left.toRat + right.toRat := by
  change (ofScaled _ _).toRat = _
  rw [to_rat_of_scaled]
  push_cast
  rw [raised_value left _ (Nat.le_max_left _ _), raised_value right _ (Nat.le_max_right _ _)]
  field_simp

@[simp] theorem to_rat_neg (value : Decimal) : (-value).toRat = -value.toRat := by
  change (ofScaled _ _).toRat = _
  rw [to_rat_of_scaled]
  unfold toRat
  push_cast
  ring

@[simp] theorem to_rat_sub (left right : Decimal) :
    (left - right).toRat = left.toRat - right.toRat := by
  change (left + -right).toRat = _
  rw [to_rat_add, to_rat_neg]
  ring

@[simp] theorem to_rat_mul (left right : Decimal) :
    (left * right).toRat = left.toRat * right.toRat := by
  change (ofScaled _ _).toRat = _
  rw [to_rat_of_scaled]
  unfold toRat
  push_cast
  rw [pow_add]
  field_simp

@[simp] theorem to_rat_of_int (value : Int) : (ofInt value).toRat = value := by
  simp [ofInt, toRat]

@[simp] theorem to_rat_zero : (0 : Decimal).toRat = 0 := by
  change (ofInt 0).toRat = 0
  simp

@[simp] theorem to_rat_one : (1 : Decimal).toRat = 1 := by
  change (ofInt 1).toRat = 1
  simp

theorem le_iff_to_rat (left right : Decimal) : left ≤ right ↔ left.toRat ≤ right.toRat := by
  change left.raised _ ≤ right.raised _ ↔ _
  rw [← Int.cast_le (R := ℚ), raised_value left _ (Nat.le_max_left _ _),
    raised_value right _ (Nat.le_max_right _ _)]
  exact mul_le_mul_iff_left₀ (by positivity)

theorem lt_iff_to_rat (left right : Decimal) : left < right ↔ left.toRat < right.toRat := by
  change left.raised _ < right.raised _ ↔ _
  rw [← Int.cast_lt (R := ℚ), raised_value left _ (Nat.le_max_left _ _),
    raised_value right _ (Nat.le_max_right _ _)]
  exact mul_lt_mul_iff_left₀ (by positivity)

instance : CommRing Decimal where
  add_assoc first second third := to_rat_injective (by simp [add_assoc])
  zero := 0
  zero_add value := to_rat_injective (by simp)
  add_zero value := to_rat_injective (by simp)
  add_comm left right := to_rat_injective (by simp [add_comm])
  mul_assoc first second third := to_rat_injective (by simp [mul_assoc])
  one := 1
  one_mul value := to_rat_injective (by simp)
  mul_one value := to_rat_injective (by simp)
  mul_comm left right := to_rat_injective (by simp [mul_comm])
  left_distrib first second third := to_rat_injective (by simp [mul_add])
  right_distrib first second third := to_rat_injective (by simp [add_mul])
  zero_mul value := to_rat_injective (by simp)
  mul_zero value := to_rat_injective (by simp)
  sub_eq_add_neg left right := rfl
  neg_add_cancel value := to_rat_injective (by simp)
  nsmul := nsmulRec
  zsmul := zsmulRec
  natCast value := ofInt value
  natCast_zero := rfl
  natCast_succ value := to_rat_injective (by simp)
  intCast value := ofInt value
  intCast_ofNat value := rfl
  intCast_negSucc value := to_rat_injective (by
    change (ofInt (Int.negSucc value)).toRat = (-(ofInt (value + 1 : Nat))).toRat
    simp [Int.negSucc_eq])

instance : LinearOrder Decimal where
  le_refl value := (le_iff_to_rat _ _).2 le_rfl
  le_trans first second third below above :=
    (le_iff_to_rat _ _).2 (((le_iff_to_rat _ _).1 below).trans ((le_iff_to_rat _ _).1 above))
  lt_iff_le_not_ge left right := by
    rw [lt_iff_to_rat, le_iff_to_rat, le_iff_to_rat]
    exact lt_iff_le_not_ge
  le_antisymm left right below above :=
    to_rat_injective (le_antisymm ((le_iff_to_rat _ _).1 below) ((le_iff_to_rat _ _).1 above))
  le_total left right := by
    rw [le_iff_to_rat, le_iff_to_rat]
    exact le_total _ _
  toDecidableLE := inferInstance
  toDecidableEq := inferInstance
  toDecidableLT := inferInstance
  min_def left right := by
    change (if right < left then right else left) = _
    split_ifs with first second second
    · rw [lt_iff_to_rat] at first
      rw [le_iff_to_rat] at second
      exact absurd first (not_lt.2 second)
    · rfl
    · rfl
    · rw [lt_iff_to_rat] at first
      rw [le_iff_to_rat] at second
      exact absurd (not_le.1 second) first
  max_def left right := by
    change (if left < right then right else left) = _
    split_ifs with first second second
    · rfl
    · rw [lt_iff_to_rat] at first
      rw [le_iff_to_rat] at second
      exact absurd first.le second
    · rw [lt_iff_to_rat] at first
      rw [le_iff_to_rat] at second
      exact to_rat_injective (le_antisymm second (not_lt.1 first))
    · rfl

instance : IsStrictOrderedRing Decimal :=
  Function.Injective.isStrictOrderedRing toRat to_rat_zero to_rat_one to_rat_add to_rat_mul
    (fun {left right} => (le_iff_to_rat left right).symm)
    (fun {left right} => (lt_iff_to_rat left right).symm)

theorem coeff_value (value : Decimal) : (value.coeff : ℚ) = value.toRat * 10 ^ value.scale := by
  unfold toRat
  field_simp

@[simp] theorem is_zero_iff (value : Decimal) : value.isZero = true ↔ value = 0 := by
  rw [← to_rat_injective.eq_iff, to_rat_zero]
  unfold isZero toRat
  simp

@[simp] theorem is_zero_false_iff (value : Decimal) : value.isZero = false ↔ value ≠ 0 := by
  rw [← Bool.not_eq_true, is_zero_iff]

@[simp] theorem is_negative_iff (value : Decimal) : value.isNegative = true ↔ value < 0 := by
  rw [lt_iff_to_rat, to_rat_zero]
  unfold isNegative
  rw [decide_eq_true_iff, ← Int.cast_lt (R := ℚ), coeff_value, Int.cast_zero]
  have power : (0 : ℚ) < 10 ^ value.scale := by positivity
  simpa using mul_lt_mul_iff_left₀ (b := value.toRat) (c := 0) power

@[simp] theorem is_negative_false_iff (value : Decimal) :
    value.isNegative = false ↔ 0 ≤ value := by
  rw [← Bool.not_eq_true, is_negative_iff, not_lt]

@[simp] theorem is_positive_iff (value : Decimal) : value.isPositive = true ↔ 0 < value := by
  rw [lt_iff_to_rat, to_rat_zero]
  unfold isPositive
  rw [decide_eq_true_iff, ← Int.cast_lt (R := ℚ), coeff_value, Int.cast_zero]
  exact mul_pos_iff_of_pos_right (by positivity)

@[simp] theorem is_positive_false_iff (value : Decimal) :
    value.isPositive = false ↔ value ≤ 0 := by
  rw [← Bool.not_eq_true, is_positive_iff, not_lt]

theorem nearest_zero (den : Nat) (positive : 0 < den) : nearest 0 den = 0 := by
  simp only [nearest, lt_irrefl, if_false, Int.natAbs_zero, Nat.mul_zero, Nat.zero_add]
  rw [Nat.div_eq_of_lt (by omega)]
  rfl

theorem div_of_ne_zero (left right : Decimal) (nonzero : right ≠ 0) :
    ∃ value, left.div? right = some value := by
  unfold div?
  rw [if_neg (by simpa using nonzero)]
  exact ⟨_, rfl⟩

theorem div_by_zero (left : Decimal) : left.div? 0 = none := by
  unfold div?
  rw [if_pos (by simp)]

theorem zero_div (right : Decimal) (nonzero : right ≠ 0) : (0 : Decimal).div? right = some 0 := by
  have coeffNonzero : right.coeff ≠ 0 := by
    intro zero
    apply nonzero
    rw [← is_zero_iff]
    simp [isZero, zero]
  unfold div?
  rw [if_neg (by simpa using nonzero)]
  have zeroCoeff : (0 : Decimal).coeff = 0 := rfl
  simp only [zeroCoeff, zero_mul]
  rw [nearest_zero _ (Nat.mul_pos (by omega) (ten_to_pos _))]
  rfl

end Analog.Decimal
