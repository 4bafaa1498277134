import Analog.Decimal

/-!
# Decimals as text

A decimal is written plainly: a sign, the integer part and, only if it is needed,
a point and the fractional digits. Reading also takes an exponent, a leading or
trailing point and surplus zeros.
-/

set_option autoImplicit false

namespace Analog.Decimal

/-- The digits of a natural number, padded with zeros to a least length. -/
def paddedDigits (length value : Nat) : List Char :=
  let digits := Nat.toDigits 10 value
  List.replicate (length - digits.length) '0' ++ digits

/-- The plain form, without exponent, surplus zeros or a negative zero. -/
def toText (value : Decimal) : String :=
  let digits := paddedDigits (value.scale + 1) value.coeff.natAbs
  let whole := digits.take (digits.length - value.scale)
  let fraction := digits.drop (digits.length - value.scale)
  let sign := if value.coeff < 0 then ['-'] else []
  let tail := if fraction.isEmpty then [] else '.' :: fraction
  String.ofList (sign ++ whole ++ tail)

instance : ToString Decimal := ⟨toText⟩

inductive TextError where
  | exponentNotNumeric (text : String)
  | tooLong (text : String)
  | severalPoints (mantissa : String)
  | notNumeric (mantissa : String)

def TextError.message : TextError → String
  | exponentNotNumeric text => "can't convert " ++ text ++ " to decimal: exponent is not numeric"
  | tooLong text => "can't convert " ++ text ++ " to decimal: fractional part too long"
  | severalPoints mantissa => "can't convert " ++ mantissa ++ " to decimal: too many .s"
  | notNumeric mantissa => "can't convert " ++ mantissa ++ " to decimal"

/-- The value of a run of decimal digits, which must not be empty. -/
def digitsValue? (digits : List Char) : Option Nat :=
  if digits.isEmpty || !digits.all Char.isDigit then none
  else some (digits.foldl (fun value digit => value * 10 + (digit.toNat - '0'.toNat)) 0)

/-- Splits off an optional sign; the flag says whether it was a minus. -/
def splitSign : List Char → Bool × List Char
  | '-' :: rest => (true, rest)
  | '+' :: rest => (false, rest)
  | rest => (false, rest)

def integerValue? (text : List Char) : Option Int :=
  (digitsValue? (splitSign text).2).map fun (value : Nat) =>
    if (splitSign text).1 then -(value : Int) else value

/-- The largest magnitude that is still read to its end in an exponent. -/
def exponentReadLimit : Nat := 4294967295

/-- How the digits of an exponent read. -/
inductive Exponent where
  | value (magnitude : Nat)
  | outOfRange
  | notNumeric

/-- Reads the digits of an exponent. Reading stops as soon as the magnitude is out of
range, so what follows then is not looked at. -/
def exponentDigits (magnitude : Nat) : List Char → Exponent
  | [] => .value magnitude
  | digit :: rest =>
    if digit.isDigit then
      let next := magnitude * 10 + (digit.toNat - '0'.toNat)
      if exponentReadLimit < next then .outOfRange else exponentDigits next rest
    else .notNumeric

def exponentFits (exponent : Int) : Bool :=
  decide (-2147483648 ≤ exponent) && decide (exponent ≤ 2147483647)

/-- Reads the exponent that follows the mark in the given text. -/
def exponentOf (whole : String) (text : List Char) : Except TextError Int :=
  let (negative, digits) := splitSign text
  if digits.isEmpty then .error (.exponentNotNumeric whole)
  else
    match exponentDigits 0 digits with
    | .notNumeric => .error (.exponentNotNumeric whole)
    | .outOfRange => .error (.tooLong whole)
    | .value magnitude =>
      let exponent : Int := if negative then -(magnitude : Int) else magnitude
      if exponentFits exponent then .ok exponent else .error (.tooLong whole)

/-- The number `coeff * 10 ^ exponent`. Zero is the same at every exponent, so no power is taken
for it. -/
def ofExponent (coeff : Int) (exponent : Int) : Decimal :=
  if coeff = 0 then 0
  else if exponent < 0 then ofScaled coeff exponent.natAbs
  else ofInt (coeff * tenTo exponent.natAbs)

/-- Reads a number whose exponent, counted without the point, is already known. -/
def ofMantissa (whole : String) (mantissa : List Char) (exponent : Int) :
    Except TextError Decimal :=
  let before := mantissa.takeWhile (· != '.')
  let fraction := (mantissa.dropWhile (· != '.')).drop 1
  if fraction.contains '.' then .error (.severalPoints (String.ofList mantissa))
  else
    match integerValue? (before ++ fraction) with
    | none => .error (.notNumeric (String.ofList mantissa))
    | some coeff =>
      let fractionBytes := (String.ofList fraction).utf8ByteSize
      if exponentFits (exponent - fractionBytes) then
        .ok (ofExponent coeff (exponent - fractionBytes))
      else .error (.tooLong whole)

def ofText (text : String) : Except TextError Decimal :=
  let chars := text.toList
  let isMark := fun (char : Char) => char == 'e' || char == 'E'
  match chars.dropWhile (!isMark ·) with
  | [] => ofMantissa text chars 0
  | _ :: exponent => do
    let value ← exponentOf text exponent
    ofMantissa text (chars.takeWhile (!isMark ·)) value

end Analog.Decimal
