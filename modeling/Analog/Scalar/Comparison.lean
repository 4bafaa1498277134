import Analog.Scalar
import Analog.Stack

/-!
# Comparison of scalars

Scalars are compared in a loop over a stack of pairs. Parts that both scalars share need no
comparison, and neither do parts with different fingerprints. The operands of a minimum or maximum
are different from each other, so of two sets of one size only the first is gone through.
-/

set_option autoImplicit false

namespace Analog.Scalar

def bothSets : Scalar → Scalar → Bool
  | .min _, .min _ => true
  | .max _, .max _ => true
  | _, _ => false

/-- Whether two expressions are of the same kind, with the same values and names and the same
bounds given. Minima and maxima are none of these kinds. -/
def sameHead : Scalar → Scalar → Bool
  | .literal value, .literal other => value == other
  | .variable name, .variable other => name == other
  | .assigned name value, .assigned other otherValue => name == other && value == otherValue
  | .negative _, .negative _ => true
  | .add _ _, .add _ _ => true
  | .mul _ _, .mul _ _ => true
  | .div _ _, .div _ _ => true
  | .slice _ start stop, .slice _ otherStart otherStop =>
    start.isNone == otherStart.isNone && stop.isNone == otherStop.isNone
  | _, _ => false

/-- Whether the fingerprints are different. Zero is no fingerprint. -/
def toldApart (left right : Scalar) : Bool :=
  left.fingerprint != 0 && right.fingerprint != 0 && left.fingerprint != right.fingerprint

theorem size_pos (scalar : Scalar) : 0 < sizeOf scalar := by
  cases scalar <;> simp +arith

noncomputable def sizes : List Scalar → Nat
  | [] => 0
  | first :: rest => sizeOf first + sizes rest

theorem sizes_append (firsts seconds : List Scalar) :
    sizes (firsts ++ seconds) = sizes firsts + sizes seconds := by
  induction firsts with
  | nil => simp [sizes]
  | cons first rest ih => rw [List.cons_append, sizes, sizes, ih, Nat.add_assoc]

theorem sizes_given_le (bound : Option Scalar) : sizes bound.toList ≤ sizeOf bound := by
  cases bound <;> simp [sizes]

theorem sizes_le (operands : List Scalar) : sizes operands ≤ sizeOf operands := by
  induction operands with
  | nil => simp [sizes]
  | cons operand rest ih =>
      rw [sizes, List.cons.sizeOf_spec]
      omega

theorem size_le_of_mem {operands : List Scalar} {operand : Scalar} (member : operand ∈ operands) :
    sizeOf operand ≤ sizes operands := by
  induction operands with
  | nil => exact absurd member List.not_mem_nil
  | cons first rest ih =>
      rw [sizes]
      rcases List.mem_cons.1 member with rfl | later
      · exact Nat.le_add_right _ _
      · exact Nat.le_add_left_of_le (ih later)

theorem sizes_children (scalar : Scalar) : sizes scalar.children < sizeOf scalar := by
  cases scalar with
  | min operands =>
      have := sizes_le operands
      simp only [children, min.sizeOf_spec]
      omega
  | max operands =>
      have := sizes_le operands
      simp only [children, max.sizeOf_spec]
      omega
  | slice extent start stop =>
      have := sizes_given_le start
      have := sizes_given_le stop
      simp only [children, sizes, sizes_append, slice.sizeOf_spec]
      omega
  | _ => simp +arith [children, sizes]

noncomputable def pairsSize : List (Scalar × Scalar) → Nat
  | [] => 0
  | (left, right) :: rest => sizeOf left + sizeOf right + pairsSize rest

theorem pairs_size_append (firsts seconds : List (Scalar × Scalar)) :
    pairsSize (firsts ++ seconds) = pairsSize firsts + pairsSize seconds := by
  induction firsts with
  | nil => simp [pairsSize]
  | cons pair rest ih =>
      rw [List.cons_append, pairsSize, pairsSize, ih]
      omega

theorem pairs_size_reverse (pairs : List (Scalar × Scalar)) :
    pairsSize pairs.reverse = pairsSize pairs := by
  induction pairs with
  | nil => rfl
  | cons pair rest ih =>
      rw [List.reverse_cons, pairs_size_append, ih, pairsSize, pairsSize, pairsSize]
      omega

theorem pairs_size_zip_le (lefts rights : List Scalar) :
    pairsSize (lefts.zip rights) ≤ sizes lefts + sizes rights := by
  induction lefts generalizing rights with
  | nil => simp [pairsSize]
  | cons left rest ih =>
      cases rights with
      | nil => simp [pairsSize]
      | cons right others =>
          have := ih others
          simp only [List.zip_cons_cons, pairsSize, sizes]
          omega

theorem pairs_size_children_lt (left right : Scalar) (rest : List (Scalar × Scalar)) :
    pairsSize (Stack.pushAll ⟨rest⟩ (left.children.zip right.children)).items <
      pairsSize ((left, right) :: rest) := by
  have := pairs_size_zip_le left.children right.children
  have := sizes_children left
  have := sizes_children right
  simp only [Stack.pushAll, pairs_size_append, pairs_size_reverse, pairsSize]
  omega

theorem pairs_size_rest_lt (left right : Scalar) (rest : List (Scalar × Scalar)) :
    pairsSize rest < pairsSize ((left, right) :: rest) := by
  have := size_pos left
  rw [pairsSize]
  omega

theorem pairs_size_of_children_lt {left right operand other : Scalar}
    (member : operand ∈ left.children) (otherMember : other ∈ right.children)
    (rest : List (Scalar × Scalar)) :
    pairsSize [(other, operand)] < pairsSize ((left, right) :: rest) := by
  have := size_le_of_mem member
  have := size_le_of_mem otherMember
  have := sizes_children left
  have := sizes_children right
  simp only [pairsSize]
  omega

/-- Whether all pairs on a stack are equal. Of some expressions it is known that they are one and
the same. -/
def compare (shared : Scalar → Scalar → Bool) : Stack (Scalar × Scalar) → Bool
  | ⟨[]⟩ => true
  | ⟨(left, right) :: rest⟩ =>
    if shared left right then compare shared ⟨rest⟩
    else if toldApart left right then false
    else if bothSets left right then
      left.children.length == right.children.length &&
        (left.children.attach.all fun operand => right.children.attach.any fun other =>
          compare shared ⟨[(other.1, operand.1)]⟩) &&
        compare shared ⟨rest⟩
    else
      sameHead left right &&
        compare shared (Stack.pushAll ⟨rest⟩ (left.children.zip right.children))
  termination_by worklist => pairsSize worklist.items
  decreasing_by
    · exact pairs_size_rest_lt left right rest
    · exact pairs_size_of_children_lt operand.2 other.2 rest
    · exact pairs_size_rest_lt left right rest
    · exact pairs_size_children_lt left right rest

def equal (shared : Scalar → Scalar → Bool) (left right : Scalar) : Bool :=
  compare shared (Stack.empty.push (left, right))

/-- Drops repetitions and keeps the first of equal expressions. -/
def dropRepeated (shared : Scalar → Scalar → Bool) (operands : List Scalar) : List Scalar :=
  operands.foldl (fun kept operand =>
    if kept.any (equal shared · operand) then kept else kept ++ [operand]) []

end Analog.Scalar
