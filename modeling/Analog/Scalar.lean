import Analog.Decimal.Binary
import Analog.Failure
import Analog.Fingerprint
import Analog.Term

/-!
# Scalar expressions

Arithmetic over decimals and named variables. A variable that has been given a value
keeps its name beside it. The operands of a minimum or maximum form a set, so the
constructors `minimum` and `maximum` drop repetitions. A slice stands for the length
of an interval cut out of an extent: a missing start is zero and a missing stop is
the extent itself.
-/

set_option autoImplicit false

namespace Analog

inductive Scalar where
  | literal (value : Decimal)
  | variable (name : String)
  | assigned (name : String) (value : Decimal)
  | negative (operand : Scalar)
  | add (left right : Scalar)
  | mul (left right : Scalar)
  | div (left right : Scalar)
  | min (operands : List Scalar)
  | max (operands : List Scalar)
  | slice (extent : Scalar) (start stop : Option Scalar)

namespace Scalar

instance : Inhabited Scalar := ⟨.literal 0⟩

def zero : Scalar := .literal 0

def one : Scalar := .literal 1

def sub (left right : Scalar) : Scalar := .add left (.negative right)

mutual

/-- Structural equality. Numbers are compared by value, the operands of a minimum or maximum
as sets. -/
def same : Scalar → Scalar → Bool
  | .literal left, .literal right => left == right
  | .variable left, .variable right => left == right
  | .assigned left leftValue, .assigned right rightValue =>
    left == right && leftValue == rightValue
  | .negative left, .negative right => same left right
  | .add left₁ left₂, .add right₁ right₂ => same left₁ right₁ && same left₂ right₂
  | .mul left₁ left₂, .mul right₁ right₂ => same left₁ right₁ && same left₂ right₂
  | .div left₁ left₂, .div right₁ right₂ => same left₁ right₁ && same left₂ right₂
  | .min lefts, .min rights => lefts.length == rights.length && eachWithin lefts rights
  | .max lefts, .max rights => lefts.length == rights.length && eachWithin lefts rights
  | .slice left leftStart leftStop, .slice right rightStart rightStop =>
    sameBound leftStart rightStart && sameBound leftStop rightStop && same left right
  | _, _ => false

/-- Whether every expression of the first list has an equal in the second. -/
def eachWithin : List Scalar → List Scalar → Bool
  | [], _ => true
  | left :: lefts, rights => rights.any (same left) && eachWithin lefts rights

def sameBound : Option Scalar → Option Scalar → Bool
  | none, none => true
  | some left, some right => same left right
  | _, _ => false

end

theorem literal_same_iff (scalar : Scalar) (value : Decimal) :
    (literal value).same scalar = true ↔ literal value = scalar := by
  cases scalar <;> simp [same]

/-- Adds an expression at the end unless an equal one is there. -/
def addUnique (operands : List Scalar) (operand : Scalar) : List Scalar :=
  if operands.any (·.same operand) then operands else operands ++ [operand]

/-- Drops repetitions and keeps the first of equal expressions. -/
def unique (operands : List Scalar) : List Scalar :=
  operands.foldl addUnique []

def minimum (operands : List Scalar) : Scalar := .min (unique operands)

def maximum (operands : List Scalar) : Scalar := .max (unique operands)

open Fingerprint in
mutual

/-- The fingerprint of an expression; equal expressions have equal ones. -/
def fingerprint : Scalar → UInt64
  | .literal value => mix (seed "literal") (ofText value.toText)
  | .variable name => mix (seed "variable") (ofText name)
  | .assigned name value => mixAll (seed "assigned_variable") [ofText name, ofText value.toText]
  | .negative operand => mix (seed "negative") (fingerprint operand)
  | .add left right => mixAll (seed "add") [fingerprint left, fingerprint right]
  | .mul left right => mixAll (seed "mul") [fingerprint left, fingerprint right]
  | .div left right => mixAll (seed "div") [fingerprint left, fingerprint right]
  | .min operands => unordered (seed "min") (fingerprints operands)
  | .max operands => unordered (seed "max") (fingerprints operands)
  | .slice extent start stop =>
    mixAll (seed "slice") [fingerprint extent,
      mixAll (seed "interval") [boundFingerprint start, boundFingerprint stop]]

def fingerprints : List Scalar → List UInt64
  | [] => []
  | operand :: rest => fingerprint operand :: fingerprints rest

def boundFingerprint : Option Scalar → UInt64
  | none => 0
  | some bound => fingerprint bound

end

mutual

/-- The readable form: operators before their operands, variables by their names. -/
def toTerm : Scalar → Term
  | .literal value => .symbol value.toText
  | .variable name => .symbol name
  | .assigned name _ => .symbol name
  | .negative operand => .tagged "-" [toTerm operand]
  | .add left right => .tagged "+" [toTerm left, toTerm right]
  | .mul left right => .tagged "*" [toTerm left, toTerm right]
  | .div left right => .tagged "/" [toTerm left, toTerm right]
  | .min operands => .tagged "min" (toTerms operands)
  | .max operands => .tagged "max" (toTerms operands)
  | .slice extent start stop => .tagged "slice" [toTerm extent, boundTerm start, boundTerm stop]

def toTerms : List Scalar → List Term
  | [] => []
  | operand :: rest => toTerm operand :: toTerms rest

def boundTerm : Option Scalar → Term
  | none => .symbol "_"
  | some bound => toTerm bound

end

def text (scalar : Scalar) : String := scalar.toTerm.render false

/-- The immediate parts, from left to right; of the bounds of a slice, those that are given. -/
def children : Scalar → List Scalar
  | .literal _ => []
  | .variable _ => []
  | .assigned _ _ => []
  | .negative operand => [operand]
  | .add left right => [left, right]
  | .mul left right => [left, right]
  | .div left right => [left, right]
  | .min operands => operands
  | .max operands => operands
  | .slice extent start stop => extent :: (start.toList ++ stop.toList)

/-- An occurrence of a variable: its name, and its value if it has one. -/
structure Occurrence where
  name : String
  value : Option Decimal

mutual

/-- All variables, with or without a value, as they occur from left to right. -/
def occurrences : Scalar → List Occurrence
  | .literal _ => []
  | .variable name => [⟨name, none⟩]
  | .assigned name value => [⟨name, some value⟩]
  | .negative operand => occurrences operand
  | .add left right => occurrences left ++ occurrences right
  | .mul left right => occurrences left ++ occurrences right
  | .div left right => occurrences left ++ occurrences right
  | .min operands => occurrencesAll operands
  | .max operands => occurrencesAll operands
  | .slice extent start stop =>
    occurrences extent ++ occurrencesBound start ++ occurrencesBound stop

def occurrencesAll : List Scalar → List Occurrence
  | [] => []
  | operand :: rest => occurrences operand ++ occurrencesAll rest

def occurrencesBound : Option Scalar → List Occurrence
  | none => []
  | some bound => occurrences bound

end

/-- Adds an occurrence at the end unless its name is there. -/
def addOccurrence (seen : List Occurrence) (next : Occurrence) : List Occurrence :=
  if seen.any (·.name == next.name) then seen else seen ++ [next]

def firstOccurrences (occurrences : List Occurrence) : List Occurrence :=
  occurrences.foldl addOccurrence []

/-- The names of all variables in order of first occurrence. -/
def names (scalar : Scalar) : List String :=
  (firstOccurrences scalar.occurrences).map (·.name)

/-- The value of an expression that is a number by itself. -/
def value? : Scalar → Option Decimal
  | .literal value => some value
  | .assigned _ value => some value
  | _ => none

def isZero (scalar : Scalar) : Bool :=
  scalar.value?.any (·.isZero)

def isOne (scalar : Scalar) : Bool :=
  scalar.value?.any (· == 1)

/-- Expressions one after the other, with a separator between them. -/
def join (scalars : List Scalar) (separator : String) : String :=
  separator.intercalate (scalars.map text)

end Scalar

/-- Optional bounds of a piece cut out of something that lasts from zero to its duration. -/
structure Interval where
  start : Option Scalar := none
  stop : Option Scalar := none

namespace Interval

def isFull (interval : Interval) : Bool :=
  interval.start.isNone && interval.stop.isNone

def same (left right : Interval) : Bool :=
  Scalar.sameBound left.start right.start && Scalar.sameBound left.stop right.stop

def fingerprint (interval : Interval) : UInt64 :=
  Fingerprint.mixAll (Fingerprint.seed "interval")
    [Scalar.boundFingerprint interval.start, Scalar.boundFingerprint interval.stop]

def boundText : Option Scalar → String
  | none => ""
  | some bound => bound.text

def text (interval : Interval) : String :=
  "[" ++ boundText interval.start ++ ":" ++ boundText interval.stop ++ "]"

def bounds (interval : Interval) : List Scalar :=
  interval.start.toList ++ interval.stop.toList

end Interval

/-- Values that can be made into scalars. -/
inductive Castable where
  | scalar (value : Scalar)
  | decimal (value : Decimal)
  | integer (value : Int)
  | float (value : Float)
  | text (value : String)
  | boolean (value : Bool)
  | nothing

def Binary.specialName : Binary → String
  | .undefined => "NaN"
  | .infinite true => "-Inf"
  | .infinite false => "+Inf"
  | .finite .. => ""

namespace Scalar

def ofText (text : String) : Outcome Scalar :=
  match Decimal.ofText text with
  | .ok value => .ok (.literal value)
  | .error error => .error (.notDecimal error)

/-- Makes a scalar of a value. A double stands for the shortest decimal that reads back as it. -/
def cast : Castable → Outcome Scalar
  | .scalar value => .ok value
  | .decimal value => .ok (.literal value)
  | .integer value => .ok (.literal (Decimal.ofInt value))
  | .float value =>
    match Decimal.ofFloat? value with
    | some decimal => .ok (.literal decimal)
    | none => .error (.notDecimal (.notNumeric (Binary.ofBits value.toBits).specialName))
  | .text value => ofText value
  | .boolean value => .error (.notScalar (if value then "true" else "false") "bool")
  | .nothing => .error (.notScalar "<nil>" "<nil>")

end Scalar

end Analog
