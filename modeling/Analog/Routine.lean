import Analog.Bindings
import Analog.Circuit
import Analog.Variables

/-!
# Routines

A routine is a circuit with the values of its variables: some are the same for all
batches, some belong to one batch, and the rest are the arguments of a run, named in
order.
-/

set_option autoImplicit false

namespace Analog

structure Routine where
  circuit : Circuit
  /-- Bindings that all batches share. -/
  static : Bindings := .empty
  /-- Bindings of every batch. Without any there is one batch. -/
  batches : List Bindings := []
  /-- The names of the arguments. -/
  arguments : List String := []

namespace Routine

def isBound (routine : Routine) (name : String) : Bool :=
  routine.static.has name || routine.batches.any (·.has name)

/-- Whether a name stands for a vector, in the circuit or in some bindings. -/
def isVector (routine : Routine) (name : String) : Bool :=
  routine.circuit.sequence.uses.vectors.contains name ||
    routine.static.vectors.contains name || routine.batches.any (·.vectors.contains name)

/-- Checks argument names one after the other, against those before them too. -/
def checkArguments (routine : Routine) : (earlier names : List String) → Outcome Unit
  | _, [] => .ok ()
  | earlier, name :: rest =>
    if earlier.contains name then .error (.repeatedArgument name)
    else if routine.isVector name then .error (.vectorArgument name)
    else if routine.isBound name then .error (.boundArgument name)
    else routine.checkArguments (name :: earlier) rest

def inBatch {α : Type} (batch : Nat) (outcome : Outcome α) : Outcome α :=
  outcome.inContext ("batch " ++ toString batch)

/-- Checks that no batch binds a name that all batches share. -/
def checkBatches (routine : Routine) : (batch : Nat) → List Bindings → Outcome Unit
  | _, [] => .ok ()
  | batch, bindings :: rest => do
    let _ ← inBatch batch (routine.static.merge bindings)
    routine.checkBatches (batch + 1) rest

/-- Arguments are told apart, are no vectors and are not bound already, and no batch binds a
name that all batches share. -/
def check (routine : Routine) : Outcome Routine := do
  routine.checkArguments [] routine.arguments
  routine.checkBatches 0 routine.batches
  return routine

def batchCount (routine : Routine) : Nat := max 1 routine.batches.length

def bindArguments (bindings : Bindings) (pairs : List (String × Decimal)) : Outcome Bindings :=
  pairs.foldlM (fun extended pair => extended.bind pair.1 pair.2) bindings

def bindings (routine : Routine) (batch : Nat) (values : List Decimal) : Outcome Bindings := do
  if values.length ≠ routine.arguments.length then
    .error (.argumentCount routine.arguments.length values.length)
  else
    let shared ← match routine.batches[batch]? with
      | some own => routine.static.merge own
      | none => pure routine.static
    bindArguments shared (routine.arguments.zip values)

end Routine

end Analog
