import Analog.Failure
import Analog.NameMap

/-!
# Bindings

Bindings give values to names. A scalar variable is bound to one number and a
run-time vector to one number for every site. Binding a name twice is a conflict,
also across the two sorts.
-/

set_option autoImplicit false

namespace Analog

abbrev ScalarBindings := NameMap Decimal

structure Bindings where
  scalars : ScalarBindings := .empty
  vectors : NameMap (List Decimal) := .empty
  deriving Inhabited

namespace Bindings

def empty : Bindings := ⟨.empty, .empty⟩

/-- What a name is bound to; a scalar hides a vector of the same name. -/
def find? (bindings : Bindings) (name : String) : Option BoundValue :=
  match bindings.scalars.find? name with
  | some value => some (.scalar value)
  | none => (bindings.vectors.find? name).map .vector

def has (bindings : Bindings) (name : String) : Bool :=
  bindings.scalars.contains name || bindings.vectors.contains name

def size (bindings : Bindings) : Nat :=
  bindings.scalars.size + bindings.vectors.size

/-- All bound names in increasing order; a name bound in both sorts stands twice. -/
def names (bindings : Bindings) : List String :=
  (bindings.scalars.names ++ bindings.vectors.names).mergeSort (· ≤ ·)

def bind (bindings : Bindings) (name : String) (value : Decimal) : Outcome Bindings :=
  match bindings.find? name with
  | some existing => .error (.reassigned name existing (.scalar value))
  | none => .ok { bindings with scalars := bindings.scalars.insert name value }

def bindVector (bindings : Bindings) (name : String) (values : List Decimal) : Outcome Bindings :=
  match bindings.find? name with
  | some existing => .error (.reassigned name existing (.vector values))
  | none => .ok { bindings with vectors := bindings.vectors.insert name values }

/-- The union of bindings that have no name in common. The scalars of the second are added
first, in order of their names, and then its vectors. -/
def merge (first second : Bindings) : Outcome Bindings := do
  let scalars ← second.scalars.entries.foldlM
    (fun (merged : Bindings) entry => merged.bind entry.1 entry.2) first
  second.vectors.entries.foldlM
    (fun (merged : Bindings) entry => merged.bindVector entry.1 entry.2) scalars

end Bindings

end Analog
