import Analog.Failure

/-!
# Stacks

A stack gives back first what was put on last. Taking from beyond its bottom aborts and
leaves the stack as it was.
-/

set_option autoImplicit false

namespace Analog

/-- The items of a stack, the top one first. -/
structure Stack (α : Type) where
  items : List α

namespace Stack

variable {α : Type}

def empty : Stack α := ⟨[]⟩

def isEmpty (stack : Stack α) : Bool := stack.items.isEmpty

def size (stack : Stack α) : Nat := stack.items.length

def push (stack : Stack α) (item : α) : Stack α := ⟨item :: stack.items⟩

/-- Pushes items in order, so that the last one comes off first. -/
def pushAll (stack : Stack α) (items : List α) : Stack α := ⟨items.reverse ++ stack.items⟩

/-- Pushes items in reverse order, so that the first one comes off first. -/
def pushReversed (stack : Stack α) (items : List α) : Stack α := ⟨items ++ stack.items⟩

def peek (stack : Stack α) (depth : Nat) : Outcome α :=
  match stack.items[depth]? with
  | some item => .ok item
  | none => .error (.abort .peekOutside)

def pop (stack : Stack α) : Outcome (α × Stack α) :=
  match stack.items with
  | item :: rest => .ok (item, ⟨rest⟩)
  | [] => .error (.abort .popFromEmpty)

/-- Takes several items off; they are given in the order in which they were pushed. -/
def popMany (stack : Stack α) (count : Nat) : Outcome (List α × Stack α) :=
  if count ≤ stack.size then
    .ok ((stack.items.take count).reverse, ⟨stack.items.drop count⟩)
  else .error (.abort .popBeyondBottom)

end Stack

end Analog
