import Analog.Routine

/-!
# Bindings that are changed in place

Bindings stand in a memory and are known by their place in it. A clone takes up a new place,
and to bind a name changes what stands at a place, for everyone who knows the place. Arguments
are bound in a clone or in a union, which starts as a clone, so that the bindings of the routine
stay as they are.
-/

set_option autoImplicit false

namespace Analog

/-- The maps of all bindings, in order of their creation. -/
structure Memory where
  scalars : List ScalarBindings
  vectors : List (NameMap (List Decimal))

/-- Where the two maps of some bindings stand. Several bindings may share a map. -/
structure Place where
  scalars : Nat
  vectors : Nat
  deriving DecidableEq

namespace Memory

def read? (memory : Memory) (place : Place) : Option Bindings :=
  match memory.scalars[place.scalars]?, memory.vectors[place.vectors]? with
  | some scalars, some vectors => some ⟨scalars, vectors⟩
  | _, _ => none

def write (memory : Memory) (place : Place) (bindings : Bindings) : Memory :=
  ⟨memory.scalars.set place.scalars bindings.scalars,
    memory.vectors.set place.vectors bindings.vectors⟩

def next (memory : Memory) : Place := ⟨memory.scalars.length, memory.vectors.length⟩

def push (memory : Memory) (bindings : Bindings) : Memory :=
  ⟨memory.scalars ++ [bindings.scalars], memory.vectors ++ [bindings.vectors]⟩

end Memory

/-- Work on a memory. What it has changed when it fails stays changed. -/
abbrev InPlace := ExceptT Failure (StateM Memory)

def InPlace.on {α : Type} (work : InPlace α) (memory : Memory) : Outcome α × Memory :=
  work.run.run memory

namespace Place

def content (place : Place) : InPlace Bindings := do
  match (← get).read? place with
  | some bindings => return bindings
  | none => throw (.abort .missing)

def clone (place : Place) : InPlace Place := do
  let bindings ← place.content
  let memory ← get
  set (memory.push bindings)
  return memory.next

def update (place : Place) (change : Bindings → Outcome Bindings) : InPlace Unit := do
  let bindings ← place.content
  match change bindings with
  | .ok made => modify (·.write place made)
  | .error failure => throw failure

/-- Adds all that is bound at another place, the scalars first. -/
def add (place other : Place) : InPlace Unit := do
  let more ← other.content
  more.scalars.entries.forM fun entry => place.update (·.bind entry.1 entry.2)
  more.vectors.entries.forM fun entry => place.update (·.bindVector entry.1 entry.2)

def merge (first second : Place) : InPlace Place := do
  let merged ← first.clone
  merged.add second
  return merged

end Place

/-- A routine whose bindings stand in a memory. -/
structure StoredRoutine where
  static : Place
  batches : List Place
  arguments : List String

namespace StoredRoutine

def shared (routine : StoredRoutine) (batch : Nat) : InPlace Place :=
  match routine.batches[batch]? with
  | some own => routine.static.merge own
  | none => routine.static.clone

/-- The place of all bindings of a batch under the given arguments. -/
def bindings (routine : StoredRoutine) (batch : Nat) (values : List Decimal) : InPlace Place :=
  if values.length ≠ routine.arguments.length then
    throw (.argumentCount routine.arguments.length values.length)
  else do
    let bound ← routine.shared batch
    (routine.arguments.zip values).forM fun pair => bound.update (·.bind pair.1 pair.2)
    return bound

end StoredRoutine

end Analog
