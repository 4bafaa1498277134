import Analog.Bindings
import Analog.Scalar

/-!
# Values of scalar expressions

Evaluation works from the leaves up and from left to right, so the failure reported is
that of the first part, in this order, that has no value.
-/

set_option autoImplicit false

namespace Analog

/-- The length of the interval from `start` to `stop` within an extent. The bounds must be in
order and lie within the extent. -/
def sliceLength (extent : Decimal) (start stop : Option Decimal) : Except Defect Decimal :=
  let lower := start.getD 0
  let upper := stop.getD extent
  if lower.isNegative then .error (.negativeStart lower)
  else if upper.isNegative then .error (.negativeStop upper)
  else if upper < lower then .error (.startAfterStop lower upper)
  else if extent < upper then .error (.stopBeyondExtent upper extent)
  else .ok (upper - lower)

namespace Scalar

mutual

def eval (bindings : ScalarBindings) : Scalar → Outcome Decimal
  | .literal value => .ok value
  | .variable name =>
    match bindings.find? name with
    | some value => .ok value
    | none => .error (.unbound [name] [])
  | .assigned _ value => .ok value
  | .negative operand => do
    let value ← eval bindings operand
    return -value
  | .add left right => do
    let leftValue ← eval bindings left
    let rightValue ← eval bindings right
    return leftValue + rightValue
  | .mul left right => do
    let leftValue ← eval bindings left
    let rightValue ← eval bindings right
    return leftValue * rightValue
  | .div left right => do
    let leftValue ← eval bindings left
    let rightValue ← eval bindings right
    match leftValue.div? rightValue with
    | some value => .ok value
    | none => .error (.divisionByZero (Scalar.div left right).text)
  | .min operands => do
    match ← evalAll bindings operands with
    | [] => .error (.malformed (Scalar.min operands).text .minimumOfNone)
    | first :: rest => return rest.foldl Min.min first
  | .max operands => do
    match ← evalAll bindings operands with
    | [] => .error (.malformed (Scalar.max operands).text .maximumOfNone)
    | first :: rest => return rest.foldl Max.max first
  | .slice extent start stop => do
    let extentValue ← eval bindings extent
    let startValue ← evalBound bindings start
    let stopValue ← evalBound bindings stop
    Outcome.blame (fun _ => (Scalar.slice extent start stop).text)
      (sliceLength extentValue startValue stopValue)

def evalAll (bindings : ScalarBindings) : List Scalar → Outcome (List Decimal)
  | [] => .ok []
  | operand :: rest => do
    let value ← eval bindings operand
    let values ← evalAll bindings rest
    return value :: values

def evalBound (bindings : ScalarBindings) : Option Scalar → Outcome (Option Decimal)
  | none => .ok none
  | some bound => do
    let value ← eval bindings bound
    return some value

end

theorem eval_variable_ok_iff (bindings : ScalarBindings) (name : String) (value : Decimal) :
    (Scalar.variable name).eval bindings = .ok value ↔ bindings.find? name = some value := by
  rw [eval]
  cases bindings.find? name <;> simp

end Scalar

end Analog
