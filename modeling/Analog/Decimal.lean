/-!
# Exact decimals

A decimal is an integer coefficient over a power of ten, kept in lowest form, so
that equal numbers are equal values. Sums, differences and products are exact.
Quotients are rounded, and the rounding rule is the same everywhere: to a fixed
number of fractional digits, a half going away from zero.
-/

set_option autoImplicit false

namespace Analog

/-- The number `coeff / 10 ^ scale`, with no factor of ten left to cancel. -/
structure Decimal where
  coeff : Int
  scale : Nat
  lowest : scale = 0 ∨ coeff % 10 ≠ 0
  deriving DecidableEq

namespace Decimal

def cancel (coeff : Int) : Nat → Int × Nat
  | 0 => (coeff, 0)
  | scale + 1 =>
    if coeff % 10 = 0 then cancel (coeff / 10) scale else (coeff, scale + 1)

theorem cancel_lowest (coeff : Int) (scale : Nat) :
    (cancel coeff scale).2 = 0 ∨ (cancel coeff scale).1 % 10 ≠ 0 := by
  induction scale generalizing coeff with
  | zero => exact Or.inl rfl
  | succ scale ih =>
    unfold cancel
    split
    · exact ih _
    · rename_i notMultiple
      exact Or.inr notMultiple

def ofScaled (coeff : Int) (scale : Nat) : Decimal :=
  ⟨(cancel coeff scale).1, (cancel coeff scale).2, cancel_lowest coeff scale⟩

def ofInt (value : Int) : Decimal :=
  ⟨value, 0, Or.inl rfl⟩

instance (value : Nat) : OfNat Decimal value := ⟨ofInt value⟩

instance : Inhabited Decimal := ⟨0⟩

def tenTo (places : Nat) : Nat :=
  Nat.pow 10 places

/-- The coefficient of a decimal when it is written over a larger power of ten. -/
def raised (value : Decimal) (scale : Nat) : Int :=
  value.coeff * tenTo (scale - value.scale)

def add (left right : Decimal) : Decimal :=
  let scale := max left.scale right.scale
  ofScaled (left.raised scale + right.raised scale) scale

def neg (value : Decimal) : Decimal :=
  ofScaled (-value.coeff) value.scale

def sub (left right : Decimal) : Decimal :=
  left.add right.neg

def mul (left right : Decimal) : Decimal :=
  ofScaled (left.coeff * right.coeff) (left.scale + right.scale)

instance : Add Decimal := ⟨add⟩
instance : Neg Decimal := ⟨neg⟩
instance : Sub Decimal := ⟨sub⟩
instance : Mul Decimal := ⟨mul⟩

/-- Whether the left number is smaller, compared over the common power of ten. -/
def lt (left right : Decimal) : Prop :=
  left.raised (max left.scale right.scale) < right.raised (max left.scale right.scale)

def le (left right : Decimal) : Prop :=
  left.raised (max left.scale right.scale) ≤ right.raised (max left.scale right.scale)

instance : LT Decimal := ⟨lt⟩
instance : LE Decimal := ⟨le⟩

instance (left right : Decimal) : Decidable (left < right) :=
  Int.decLt _ _

instance (left right : Decimal) : Decidable (left ≤ right) :=
  Int.decLe _ _

instance : Max Decimal := ⟨fun left right => if left < right then right else left⟩
instance : Min Decimal := ⟨fun left right => if right < left then right else left⟩

def isZero (value : Decimal) : Bool := value.coeff == 0

def isNegative (value : Decimal) : Bool := decide (value.coeff < 0)

def isPositive (value : Decimal) : Bool := decide (0 < value.coeff)

/-- The integer nearest to `num / den`, a half going away from zero. -/
def nearest (num : Int) (den : Nat) : Int :=
  if num < 0 then -(((2 * num.natAbs + den) / (2 * den) : Nat) : Int)
  else (((2 * num.natAbs + den) / (2 * den) : Nat) : Int)

/-- Rounds to the given number of fractional digits, a half going away from zero. -/
def round (places : Nat) (value : Decimal) : Decimal :=
  if value.scale ≤ places then value
  else ofScaled (nearest value.coeff (tenTo (value.scale - places))) places

def quotientPlaces : Nat := 16

/-- The quotient rounded to `quotientPlaces` digits; there is none by zero. -/
def div? (left right : Decimal) : Option Decimal :=
  if right.isZero then none
  else
    let num := left.coeff * right.coeff.sign * tenTo (right.scale + quotientPlaces)
    let den := right.coeff.natAbs * tenTo left.scale
    some (ofScaled (nearest num den) quotientPlaces)

def floor (value : Decimal) : Int :=
  value.coeff / tenTo value.scale

def ceil (value : Decimal) : Int :=
  -(-value.coeff / tenTo value.scale)

end Decimal

end Analog
