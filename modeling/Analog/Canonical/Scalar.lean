import Analog.Canonical.Memo
import Analog.Scalar.Value

/-!
# Canonical scalars

Constant parts are folded into one number, neutral operands are dropped, negations are
pushed outwards and cancelled, and nested minima and maxima are spliced into one. Each
rule is applied to operands that are canonical already. A variable that has a value counts
as that number.
-/

set_option autoImplicit false

namespace Analog.Canonical

def negative (operand : Scalar) : Scalar :=
  match operand.value? with
  | some value => .literal (-value)
  | none =>
    match operand with
    | .negative inner => inner
    | _ => .negative operand

def isNegationOf (scalar other : Scalar) : Bool :=
  match scalar with
  | .negative inner => inner.same other
  | _ => false

/-- The sum of two canonical operands. A sum of negations is the negation of a sum. -/
def sum (left right : Scalar) : Scalar :=
  match left.value?, right.value? with
  | some leftValue, some rightValue => .literal (leftValue + rightValue)
  | _, _ =>
    if left.isZero then right
    else if right.isZero then left
    else if isNegationOf right left || isNegationOf left right then Scalar.zero
    else
      match left, right with
      | .negative leftInner, .negative rightInner => negative (sum leftInner rightInner)
      | _, _ => .add left right

def product (left right : Scalar) : Scalar :=
  match left.value?, right.value? with
  | some leftValue, some rightValue => .literal (leftValue * rightValue)
  | _, _ =>
    if left.isZero || right.isZero then Scalar.zero
    else if left.isOne then right
    else if right.isOne then left
    else .mul left right

/-- The quotient of two canonical operands; the subject is named if the divisor is zero. -/
def quotient (subject : Unit → String) (left right : Scalar) : Outcome Scalar :=
  if right.isZero then .error (.divisionByZero (subject ()))
  else
    match left.value?, right.value? with
    | some leftValue, some rightValue => do
      let value ← leftValue.quotient rightValue
      return .literal value
    | _, _ =>
      if right.isOne then .ok left
      else if left.isZero then .ok Scalar.zero
      else .ok (.div left right)

/-- Operands that are not numbers, in order, and after them the one number that all the others
come down to. -/
def foldConstants (combine : Decimal → Decimal → Decimal) (operands : List Scalar) :
    List Scalar :=
  let members := operands.filter fun operand => operand.value?.isNone
  match operands.filterMap Scalar.value? with
  | [] => members
  | first :: rest => members ++ [.literal (rest.foldl combine first)]

def spliceMinimum : Scalar → List Scalar
  | .min operands => operands
  | other => [other]

def spliceMaximum : Scalar → List Scalar
  | .max operands => operands
  | other => [other]

def ofMembers (build : List Scalar → Scalar) (members : List Scalar) : Outcome Scalar :=
  match Scalar.unique members with
  | [] => .error (.abort .missing)
  | [member] => .ok member
  | several => .ok (build several)

def minimum (subject : Unit → String) (operands : List Scalar) : Outcome Scalar :=
  if operands.isEmpty then .error (.malformed (subject ()) .minimumOfNone)
  else ofMembers .min (foldConstants min (operands.flatMap spliceMinimum))

def maximum (subject : Unit → String) (operands : List Scalar) : Outcome Scalar :=
  if operands.isEmpty then .error (.malformed (subject ()) .maximumOfNone)
  else ofMembers .max (foldConstants max (operands.flatMap spliceMaximum))

/-- The value of a bound: a missing bound is known to be missing. -/
def boundValue? : Option Scalar → Option (Option Decimal)
  | none => some none
  | some bound => bound.value?.map some

/-- The length of a slice. A slice without bounds is the whole, and one between numbers is a
number; the subject is named if these are not in order. -/
def slice (subject : Unit → String) (extent : Scalar) (interval : Interval) : Outcome Scalar :=
  if interval.isFull then .ok extent
  else
    match extent.value?, boundValue? interval.start, boundValue? interval.stop with
    | some extentValue, some start, some stop => do
      let value ← Outcome.blame subject (sliceLength extentValue start stop)
      return .literal value
    | _, _, _ => .ok (.slice extent interval.start interval.stop)

mutual

def scalar : Scalar → Simplifying Scalar
  | .literal value =>
    rememberScalar (.literal value) (pure ()) fun _ => pure (.literal value)
  | .variable name =>
    rememberScalar (.variable name) (pure ()) fun _ => pure (.variable name)
  | .assigned name value =>
    rememberScalar (.assigned name value) (pure ()) fun _ => pure (.assigned name value)
  | .negative operand =>
    rememberScalar (.negative operand) (scalar operand) fun operand' => pure (negative operand')
  | .add left right =>
    rememberScalar (.add left right)
      (do
        let left' ← scalar left
        let right' ← scalar right
        return (left', right'))
      fun (left', right') => pure (sum left' right')
  | .mul left right =>
    rememberScalar (.mul left right)
      (do
        let left' ← scalar left
        let right' ← scalar right
        return (left', right'))
      fun (left', right') => pure (product left' right')
  | .div left right =>
    rememberScalar (.div left right)
      (do
        let left' ← scalar left
        let right' ← scalar right
        return (left', right'))
      fun (left', right') =>
        lift (quotient (fun _ => (Scalar.div left right).text) left' right')
  | .min operands =>
    rememberScalar (.min operands) (scalars operands) fun operands' =>
      lift (minimum (fun _ => (Scalar.min operands).text) operands')
  | .max operands =>
    rememberScalar (.max operands) (scalars operands) fun operands' =>
      lift (maximum (fun _ => (Scalar.max operands).text) operands')
  | .slice extent start stop =>
    rememberScalar (.slice extent start stop)
      (do
        let extent' ← scalar extent
        let start' ← scalarBound start
        let stop' ← scalarBound stop
        return (extent', Interval.mk start' stop'))
      fun (extent', interval) =>
        lift (slice (fun _ => (Scalar.slice extent start stop).text) extent' interval)

/-- The canonical forms of several scalars, from left to right. -/
def scalars : List Scalar → Simplifying (List Scalar)
  | [] => pure []
  | operand :: rest => do
    let operand' ← scalar operand
    let rest' ← scalars rest
    return operand' :: rest'

def scalarBound : Option Scalar → Simplifying (Option Scalar)
  | none => pure none
  | some bound => do
    let bound' ← scalar bound
    return some bound'

end

def interval (given : Interval) : Simplifying Interval := do
  let start ← scalarBound given.start
  let stop ← scalarBound given.stop
  return ⟨start, stop⟩

/-- Whether canonical bounds leave the whole of an extent. -/
def coversAll (bounds : Interval) (extent : Scalar) : Bool :=
  bounds.start.all (·.isZero) && bounds.stop.all (·.same extent)

end Analog.Canonical
