import Analog.Stack

/-!
# Comparing trees with a stack

Trees are compared in a loop over a stack of pairs of nodes, so that their depth costs no
recursion. A pair that is known to be one and the same node needs no comparison, and nodes with
different fingerprints are different. Otherwise what the nodes hold besides their children is
compared, and the children are left for later.
-/

set_option autoImplicit false

namespace Analog

namespace Branching

def sizes {ν : Type} (size : ν → Nat) : List ν → Nat
  | [] => 0
  | first :: rest => size first + sizes size rest

end Branching

/-- Trees by the children of their nodes, which take up less than the nodes themselves. -/
class Branching (ν : Type) where
  children : ν → List ν
  finite : ∃ size : ν → Nat, ∀ node, Branching.sizes size (children node) < size node

namespace Branching

section Sizes

variable {ν : Type} (size : ν → Nat)

theorem sizes_append (firsts seconds : List ν) :
    sizes size (firsts ++ seconds) = sizes size firsts + sizes size seconds := by
  induction firsts with
  | nil => exact (Nat.zero_add _).symm
  | cons first rest ih => rw [List.cons_append, sizes, sizes, ih, Nat.add_assoc]

theorem sizes_reverse (nodes : List ν) : sizes size nodes.reverse = sizes size nodes := by
  induction nodes with
  | nil => rfl
  | cons first rest ih =>
      rw [List.reverse_cons, sizes_append, ih, sizes, sizes, sizes, Nat.add_zero, Nat.add_comm]

theorem size_le_of_mem {node : ν} {nodes : List ν} (member : node ∈ nodes) :
    size node ≤ sizes size nodes := by
  induction member with
  | head rest => exact Nat.le_add_right _ _
  | tail first _ ih => exact Nat.le_trans ih (Nat.le_add_left _ _)

theorem sizes_of_size_of_le [SizeOf ν] (nodes : List ν) : sizes sizeOf nodes ≤ sizeOf nodes := by
  induction nodes with
  | nil => exact Nat.zero_le _
  | cons first rest ih =>
      rw [sizes, List.cons.sizeOf_spec]
      omega

end Sizes

variable {ν : Type} [Branching ν]

noncomputable def size : ν → Nat := Classical.choose finite

theorem sizes_children_lt (node : ν) : sizes size (children node) < size node :=
  Classical.choose_spec finite node

end Branching

/-- Which nodes are known to be one and the same. -/
structure Identity (ν : Type) where
  known : ν → ν → Bool
  eq_of_known : ∀ left right, known left right = true → left = right

def Identity.unknown {ν : Type} : Identity ν :=
  ⟨fun _ _ => false, fun _ _ impossible => nomatch impossible⟩

/-- How nodes of one kind are compared. -/
structure Comparison (ν : Type) where
  identity : Identity ν
  fingerprint : ν → UInt64
  /-- Compares what nodes hold besides their children. -/
  agree : ν → ν → Bool

namespace Comparison

variable {ν : Type}

section Pairs

variable (size : ν → Nat)

def leftSize (pairs : List (ν × ν)) : Nat := Branching.sizes size (pairs.map Prod.fst)

theorem left_size_zip_le (lefts rights : List ν) :
    leftSize size (lefts.zip rights) ≤ Branching.sizes size lefts := by
  induction lefts generalizing rights with
  | nil => exact Nat.le_refl 0
  | cons left rest ih =>
      cases rights with
      | nil => exact Nat.zero_le _
      | cons right others => exact Nat.add_le_add_left (ih others) (size left)

end Pairs

open Branching

variable [Branching ν]

theorem left_size_rest_lt (left right : ν) (rest : List (ν × ν)) :
    leftSize size rest < leftSize size ((left, right) :: rest) := by
  have := sizes_children_lt left
  simp only [leftSize, List.map_cons, sizes]
  omega

theorem left_size_children_lt (left right : ν) (rest : List (ν × ν)) :
    leftSize size (Stack.pushAll ⟨rest⟩ ((children left).zip (children right))).items <
      leftSize size ((left, right) :: rest) := by
  have pushed := left_size_zip_le size (children left) (children right)
  have := sizes_children_lt left
  simp only [leftSize, Stack.pushAll, List.map_append, List.map_reverse, sizes_append,
    sizes_reverse, List.map_cons, sizes] at pushed ⊢
  omega

def allEqual (comparison : Comparison ν) : Stack (ν × ν) → Bool
  | ⟨[]⟩ => true
  | ⟨(left, right) :: rest⟩ =>
    if comparison.identity.known left right then comparison.allEqual ⟨rest⟩
    else if comparison.fingerprint left != comparison.fingerprint right then false
    else
      comparison.agree left right && (children left).length == (children right).length &&
        comparison.allEqual (Stack.pushAll ⟨rest⟩ ((children left).zip (children right)))
  termination_by worklist => leftSize size worklist.items
  decreasing_by
    · exact left_size_rest_lt left right rest
    · exact left_size_children_lt left right rest

def equal (comparison : Comparison ν) (left right : ν) : Bool :=
  comparison.allEqual (Stack.empty.push (left, right))

end Comparison

end Analog
