import Analog.Decimal.Text

/-!
# Decimals and binary floating point

A finite double stands for `mantissa * 2 ^ exponent`. Its decimal is the one with
the fewest digits that still lies among the reals rounding to that double, and the
nearest of these. The way back rounds to the nearest double.
-/

set_option autoImplicit false

namespace Analog

/-- The parts of a double, as far as its value goes. -/
inductive Binary where
  | undefined
  | infinite (negative : Bool)
  /-- The value `mantissa * 2 ^ exponent`; `edge` marks a mantissa below which doubles lie
  twice as close. -/
  | finite (negative : Bool) (mantissa : Nat) (exponent : Int) (edge : Bool)

namespace Binary

def twoTo (places : Nat) : Nat :=
  Nat.pow 2 places

/-- Takes a double apart: a sign, eleven digits of exponent and fifty-two of fraction. -/
def ofBits (bits : UInt64) : Binary :=
  let negative := decide (twoTo 63 ≤ bits.toNat)
  let field : Nat := bits.toNat / twoTo 52 % twoTo 11
  let fraction : Nat := bits.toNat % twoTo 52
  if field = 2047 then
    if fraction = 0 then .infinite negative else .undefined
  else if field = 0 then .finite negative fraction (-1074) false
  else .finite negative (twoTo 52 + fraction) ((field : Int) - 1075)
    (fraction = 0 && decide (1 < field))

/-- A natural number times a power of two or ten, over a common denominator. -/
structure Ratio where
  num : Nat
  den : Nat

/-- The position of the leading decimal digit of a positive ratio. -/
def Ratio.leading (ratio : Ratio) : Int :=
  if ratio.den ≤ ratio.num then
    ((Nat.toDigits 10 (ratio.num / ratio.den)).length : Int) - 1
  else
    let length := (Nat.toDigits 10 (ratio.den / ratio.num)).length
    if ratio.num * Decimal.tenTo (length - 1) = ratio.den then 1 - (length : Int)
    else -(length : Int)

/-- The point of the grid of multiples of `10 ^ place` that lies in the rounding interval and
is nearest to the value, if there is one. All three numbers share one denominator, and the
ends count only if `closed`. -/
def gridPoint (low value high den : Nat) (closed : Bool) (place : Int) : Option Decimal :=
  let up := if place < 0 then Decimal.tenTo place.natAbs else 1
  let unit := if place < 0 then den else den * Decimal.tenTo place.natAbs
  let below := value * up / unit
  let inside := fun (point : Nat) =>
    if closed then decide (low * up ≤ point * unit) && decide (point * unit ≤ high * up)
    else decide (low * up < point * unit) && decide (point * unit < high * up)
  let belowIsNearer := decide (2 * (value * up) ≤ (2 * below + 1) * unit)
  let choices := if belowIsNearer then [below, below + 1] else [below + 1, below]
  (choices.find? inside).map fun (point : Nat) => Decimal.ofExponent point place

def sufficientDigits : Nat := 17

/-- The decimal with the fewest digits that reads back as `mantissa * 2 ^ exponent`. -/
def shortest (mantissa : Nat) (exponent : Int) (edge : Bool) : Decimal :=
  if mantissa = 0 then 0
  else
    let shift := exponent - 2
    let up := if shift < 0 then 1 else twoTo shift.natAbs
    let den := if shift < 0 then twoTo shift.natAbs else 1
    let value := 4 * mantissa * up
    let low := (4 * mantissa - if edge then 1 else 2) * up
    let high := (4 * mantissa + 2) * up
    let leading := Ratio.leading ⟨value, den⟩
    let grids := (List.range sufficientDigits).map fun (digits : Nat) => leading - (digits : Int)
    (grids.findSome? (gridPoint low value high den (mantissa % 2 = 0))).getD 0

end Binary

namespace Decimal

/-- The shortest decimal that reads back as the given double; only finite ones have one. -/
def ofBinary? : Binary → Option Decimal
  | .undefined => none
  | .infinite _ => none
  | .finite negative mantissa exponent edge =>
    let magnitude := Binary.shortest mantissa exponent edge
    some (if negative then -magnitude else magnitude)

def ofFloat? (value : Float) : Option Decimal :=
  ofBinary? (Binary.ofBits value.toBits)

def toFloat (value : Decimal) : Float :=
  let magnitude := Float.ofScientific value.coeff.natAbs true value.scale
  if value.coeff < 0 then -magnitude else magnitude

end Decimal

end Analog
