import Analog.Stack

/-!
# Folding trees with stacks

A tree is given by the node at its root and a function from nodes to their children. Its nodes are
combined from the leaves up, in a loop over two stacks, one of pending work and one of results, so
that the depth of a tree costs no recursion. Beside it stands the fold by recursion over a tree
that is laid out in full.
-/

set_option autoImplicit false

namespace Analog

/-- A finite tree with labelled nodes. -/
inductive Tree (α : Type) where
  | node (label : α) (children : List (Tree α))

namespace Tree

variable {α β : Type}

def root : Tree α → α
  | .node label _ => label

mutual

/-- The result of a tree: its children are folded from left to right and then combined. -/
def fold (combine : α → List β → Outcome β) : Tree α → Outcome β
  | .node label children => do
    let results ← foldAll combine children
    combine label results

def foldAll (combine : α → List β → Outcome β) : List (Tree α) → Outcome (List β)
  | [] => .ok []
  | child :: rest => do
    let result ← fold combine child
    let results ← foldAll combine rest
    return result :: results

end

end Tree

namespace Traversal

/-- Work that waits: a node to look at, or one that has been expanded and waits for the results of
so many children. -/
structure Frame (ν : Type) where
  node : ν
  arity : Nat := 0
  expanded : Bool := false

end Traversal

structure Traversal (ν β : Type) where
  work : Stack (Traversal.Frame ν)
  results : Stack β

namespace Traversal

variable {ν β : Type}

def start (root : ν) : Traversal ν β := ⟨Stack.empty.push { node := root }, Stack.empty⟩

/-- One round. A new node is put back, and its children on top of it. A node whose children are
done takes their results off and leaves its own. -/
def round (children : ν → List ν) (combine : ν → List β → Outcome β) (state : Traversal ν β) :
    Outcome (Traversal ν β) := do
  let (frame, rest) ← state.work.pop
  if frame.expanded then
    let (arguments, below) ← state.results.popMany frame.arity
    let result ← combine frame.node arguments
    return ⟨rest, below.push result⟩
  else
    let inner := children frame.node
    let waiting := rest.push ⟨frame.node, inner.length, true⟩
    return ⟨waiting.pushReversed (inner.map fun child => { node := child }), state.results⟩

/-- A round leads from a state with work left to the next. -/
def Leads (children : ν → List ν) (combine : ν → List β → Outcome β)
    (next state : Traversal ν β) : Prop :=
  state.work.isEmpty = false ∧ state.round children combine = .ok next

abbrev Ends (children : ν → List ν) (combine : ν → List β → Outcome β)
    (state : Traversal ν β) : Prop :=
  Acc (Leads children combine) state

/-- Rounds until no work is left, from a state from which they end. -/
def run (children : ν → List ν) (combine : ν → List β → Outcome β) (state : Traversal ν β)
    (ends : Ends children combine state) : Outcome β :=
  if done : state.work.isEmpty then Prod.fst <$> state.results.pop
  else
    match made : state.round children combine with
    | .ok next => run children combine next (ends.inv ⟨Bool.eq_false_iff.2 done, made⟩)
    | .error failure => .error failure
  termination_by (⟨state, ends⟩ : { state // Ends children combine state })
  decreasing_by exact ⟨Bool.eq_false_iff.2 done, made⟩

/-- The result of the tree under a node, computed with stacks. -/
def fold (children : ν → List ν) (combine : ν → List β → Outcome β) (root : ν)
    (ends : Ends children combine (start root)) : Outcome β :=
  run children combine (start root) ends

end Traversal

end Analog
