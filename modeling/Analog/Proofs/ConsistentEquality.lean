import Mathlib.Data.List.Forall2
import Analog.Proofs.Outcomes
import Analog.Pulse
import Analog.Stack.Comparison

/-!
# Consistent equality

An equality is consistent with fingerprints if it is an equivalence and equal items have equal
fingerprints. For trees this follows from what holds of a node and of its children. The loop over
pairs of nodes then finds the same nodes equal, whatever it takes to be known: pairs that are known
are equal since equality is reflexive, and those with different fingerprints are not.
-/

set_option autoImplicit false

namespace Analog

/-- An equivalence among good items. -/
structure EquivalentOn {α : Type} (good : α → Prop) (same : α → α → Bool) : Prop where
  refl : ∀ item, good item → same item item = true
  symm : ∀ first second, good first → good second →
    same first second = true → same second first = true
  trans : ∀ first second third, good first → good second → good third →
    same first second = true → same second third = true → same first third = true

/-- An equivalence among good items that have fingerprints. -/
structure Consistent {α : Type} (good : α → Prop) (same : α → α → Bool) (fingerprint : α → UInt64) :
    Prop extends EquivalentOn good same where
  fingerprints : ∀ first second, good first → good second →
    same first second = true → fingerprint first = fingerprint second

namespace EquivalentOn

variable {α β : Type} {good : α → Prop} {same : α → α → Bool}

theorem comap (equivalent : EquivalentOn good same) (view : β → α) :
    EquivalentOn (fun item => good (view item)) fun first second =>
      same (view first) (view second) where
  refl item := equivalent.refl (view item)
  symm first second := equivalent.symm (view first) (view second)
  trans first second third := equivalent.trans (view first) (view second) (view third)

theorem both {otherGood : α → Prop} {otherSame : α → α → Bool}
    (equivalent : EquivalentOn good same) (other : EquivalentOn otherGood otherSame) :
    EquivalentOn (fun item => good item ∧ otherGood item) fun first second =>
      same first second && otherSame first second where
  refl item isGood := by
    rw [equivalent.refl item isGood.1, other.refl item isGood.2, Bool.and_self]
  symm first second firstGood secondGood equal := by
    rw [Bool.and_eq_true] at equal ⊢
    exact ⟨equivalent.symm _ _ firstGood.1 secondGood.1 equal.1,
      other.symm _ _ firstGood.2 secondGood.2 equal.2⟩
  trans first second third firstGood secondGood thirdGood equal next := by
    rw [Bool.and_eq_true] at equal next ⊢
    exact ⟨equivalent.trans _ _ _ firstGood.1 secondGood.1 thirdGood.1 equal.1 next.1,
      other.trans _ _ _ firstGood.2 secondGood.2 thirdGood.2 equal.2 next.2⟩

theorem options (equivalent : EquivalentOn good same) :
    EquivalentOn (fun option : Option α => ∀ item ∈ option, good item)
      (Pulse.sameOption same) where
  refl option isGood := by
    cases option with
    | none => rfl
    | some item => exact equivalent.refl item (isGood item rfl)
  symm first second firstGood secondGood equal := by
    match first, second with
    | none, none => rfl
    | some item, some other => exact equivalent.symm _ _ (firstGood _ rfl) (secondGood _ rfl) equal
  trans first second third firstGood secondGood thirdGood equal next := by
    match first, second, third with
    | none, none, none => rfl
    | some item, some other, some last =>
        exact equivalent.trans _ _ _ (firstGood _ rfl) (secondGood _ rfl) (thirdGood _ rfl)
          equal next

theorem mono {otherGood : α → Prop} {otherSame : α → α → Bool} (equivalent : EquivalentOn good same)
    (stronger : ∀ item, otherGood item → good item)
    (agrees : ∀ first second, otherGood first → otherGood second →
      otherSame first second = same first second) : EquivalentOn otherGood otherSame where
  refl item isGood := by
    rw [agrees _ _ isGood isGood]
    exact equivalent.refl item (stronger item isGood)
  symm first second firstGood secondGood := by
    rw [agrees _ _ firstGood secondGood, agrees _ _ secondGood firstGood]
    exact equivalent.symm _ _ (stronger _ firstGood) (stronger _ secondGood)
  trans first second third firstGood secondGood thirdGood := by
    rw [agrees _ _ firstGood secondGood, agrees _ _ secondGood thirdGood,
      agrees _ _ firstGood thirdGood]
    exact equivalent.trans _ _ _ (stronger _ firstGood) (stronger _ secondGood)
      (stronger _ thirdGood)

theorem functions {κ : Type} (equivalent : EquivalentOn good same) (arguments : List κ) :
    EquivalentOn (fun function : κ → α => ∀ argument ∈ arguments, good (function argument))
      fun first second =>
        arguments.all fun argument => same (first argument) (second argument) where
  refl _ isGood := List.all_eq_true.2 fun argument member =>
    equivalent.refl _ (isGood argument member)
  symm _ _ firstGood secondGood equal := List.all_eq_true.2 fun argument member =>
    equivalent.symm _ _ (firstGood argument member) (secondGood argument member)
      (List.all_eq_true.1 equal argument member)
  trans _ _ _ firstGood secondGood thirdGood equal next := List.all_eq_true.2 fun argument member =>
    equivalent.trans _ _ _ (firstGood argument member) (secondGood argument member)
      (thirdGood argument member) (List.all_eq_true.1 equal argument member)
      (List.all_eq_true.1 next argument member)

end EquivalentOn

theorem Consistent.mono {α : Type} {good otherGood : α → Prop} {same otherSame : α → α → Bool}
    {fingerprint : α → UInt64} (consistent : Consistent good same fingerprint)
    (stronger : ∀ item, otherGood item → good item)
    (agrees : ∀ first second, otherGood first → otherGood second →
      otherSame first second = same first second) :
    Consistent otherGood otherSame fingerprint where
  toEquivalentOn := consistent.toEquivalentOn.mono stronger agrees
  fingerprints first second firstGood secondGood := by
    rw [agrees _ _ firstGood secondGood]
    exact consistent.fingerprints _ _ (stronger _ firstGood) (stronger _ secondGood)

theorem same_option_congr {α : Type} {same other : α → α → Bool} {left right : Option α}
    (agrees : ∀ first ∈ left, ∀ second ∈ right, same first second = other first second) :
    Pulse.sameOption same left right = Pulse.sameOption other left right := by
  match left, right with
  | none, none | none, some _ | some _, none => rfl
  | some first, some second => exact agrees first rfl second rfl

theorem is_eqv_iff {α : Type} (same : α → α → Bool) (lefts rights : List α) :
    lefts.isEqv rights same = true ↔
      List.Forall₂ (fun left right => same left right = true) lefts rights := by
  induction lefts generalizing rights with
  | nil => cases rights <;> simp [List.isEqv]
  | cons left rest ih => cases rights <;> simp [List.isEqv, ih]

section Trees

variable {ν : Type} [Branching ν] {good : ν → Prop} {agree same : ν → ν → Bool}

theorem Branching.children_induction {holds : ν → Prop}
    (step : ∀ node, (∀ child ∈ children node, holds child) → holds node) (node : ν) :
    holds node := by
  induction bounded : size node using Nat.strong_induction_on generalizing node with
  | _ bound ih =>
    subst bounded
    refine step node fun child member => ih _ ?_ child rfl
    exact (size_le_of_mem size member).trans_lt (sizes_children_lt node)

/-- Good nodes are equal if they agree and their children are equal one by one. -/
structure ByParts (good : ν → Prop) (agree same : ν → ν → Bool) : Prop where
  closed : ∀ node, good node → ∀ child ∈ Branching.children node, good child
  parts : ∀ left right, good left → good right →
    (same left right = true ↔ agree left right = true ∧
      List.Forall₂ (fun child other => same child other = true)
        (Branching.children left) (Branching.children right))

namespace ByParts

theorem refl (byParts : ByParts good agree same) (agreement : EquivalentOn good agree) (node : ν)
    (isGood : good node) : same node node = true := by
  induction node using Branching.children_induction with
  | step node ih =>
      refine (byParts.parts _ _ isGood isGood).2 ⟨agreement.refl node isGood, ?_⟩
      exact List.forall₂_same.2 fun child member =>
        ih child member (byParts.closed _ isGood _ member)

theorem symm (byParts : ByParts good agree same) (agreement : EquivalentOn good agree)
    (first second : ν) (firstGood : good first) (secondGood : good second)
    (equal : same first second = true) : same second first = true := by
  induction first using Branching.children_induction generalizing second with
  | step first ih =>
      obtain ⟨agreed, children⟩ := (byParts.parts _ _ firstGood secondGood).1 equal
      refine (byParts.parts _ _ secondGood firstGood).2
        ⟨agreement.symm _ _ firstGood secondGood agreed, List.Forall₂.flip ?_⟩
      exact Outcome.related_of_members children fun child member other otherMember childEqual =>
        ih child member other (byParts.closed _ firstGood _ member)
          (byParts.closed _ secondGood _ otherMember) childEqual

theorem trans (byParts : ByParts good agree same) (agreement : EquivalentOn good agree)
    (first second third : ν) (firstGood : good first) (secondGood : good second)
    (thirdGood : good third) (equal : same first second = true) (next : same second third = true) :
    same first third = true := by
  induction first using Branching.children_induction generalizing second third with
  | step first ih =>
      obtain ⟨agreed, children⟩ := (byParts.parts _ _ firstGood secondGood).1 equal
      obtain ⟨nextAgreed, nextChildren⟩ := (byParts.parts _ _ secondGood thirdGood).1 next
      refine (byParts.parts _ _ firstGood thirdGood).2
        ⟨agreement.trans _ _ _ firstGood secondGood thirdGood agreed nextAgreed, ?_⟩
      exact Outcome.related_trans children nextChildren
        fun child member other otherMember last lastMember =>
          ih child member other last (byParts.closed _ firstGood _ member)
            (byParts.closed _ secondGood _ otherMember) (byParts.closed _ thirdGood _ lastMember)

/-- The fingerprint of a node comes from what it agrees on and from its children. -/
theorem consistent (byParts : ByParts good agree same) (agreement : EquivalentOn good agree)
    {fingerprint : ν → UInt64}
    (words : ∀ left right, good left → good right → agree left right = true →
      List.Forall₂ (fun child other => fingerprint child = fingerprint other)
        (Branching.children left) (Branching.children right) →
      fingerprint left = fingerprint right) :
    Consistent good same fingerprint where
  refl := byParts.refl agreement
  symm := byParts.symm agreement
  trans := byParts.trans agreement
  fingerprints first second firstGood secondGood equal := by
    induction first using Branching.children_induction generalizing second with
    | step first ih =>
        obtain ⟨agreed, children⟩ := (byParts.parts _ _ firstGood secondGood).1 equal
        refine words _ _ firstGood secondGood agreed ?_
        exact Outcome.related_of_members children fun child member other otherMember equal =>
          ih child member other (byParts.closed _ firstGood _ member)
            (byParts.closed _ secondGood _ otherMember) equal

theorem all_equal_iff {comparison : Comparison ν} (byParts : ByParts good comparison.agree same)
    (consistent : Consistent good same comparison.fingerprint) (worklist : Stack (ν × ν))
    (each : ∀ pair ∈ worklist.items, good pair.1 ∧ good pair.2) :
    comparison.allEqual worklist = true ↔
      ∀ pair ∈ worklist.items, same pair.1 pair.2 = true := by
  -- A step takes the topmost pair off and leaves pairs of children in its place.
  induction size : Comparison.leftSize Branching.size worklist.items
    using Nat.strong_induction_on generalizing worklist with
  | _ bound ih =>
    subst size
    obtain ⟨_ | ⟨⟨left, right⟩, rest⟩⟩ := worklist
    · simp [Comparison.allEqual]
    obtain ⟨⟨leftGood, rightGood⟩, restGood⟩ := List.forall_mem_cons.1 each
    have restIff := ih _ (Comparison.left_size_rest_lt left right rest) ⟨rest⟩ restGood rfl
    have partsIff := ih _ (Comparison.left_size_children_lt left right rest)
      (Stack.pushAll ⟨rest⟩ ((Branching.children left).zip (Branching.children right)))
      (List.forall_mem_append.2 ⟨fun pair member => by
        obtain ⟨child, other⟩ := List.of_mem_zip (List.mem_reverse.1 member)
        exact ⟨byParts.closed _ leftGood _ child, byParts.closed _ rightGood _ other⟩, restGood⟩)
      rfl
    rw [Comparison.allEqual, List.forall_mem_cons]
    split_ifs with known different
    · rw [restIff, comparison.identity.eq_of_known _ _ known,
        and_iff_right (consistent.refl right rightGood)]
    · refine iff_of_false not_false fun all => bne_iff_ne.1 different ?_
      exact consistent.fingerprints _ _ leftGood rightGood all.1
    · rw [Bool.and_eq_true, Bool.and_eq_true, beq_iff_eq, partsIff,
        byParts.parts _ _ leftGood rightGood, List.forall₂_iff_zip, Stack.pushAll,
        List.forall_mem_append, and_assoc, and_assoc, and_assoc]
      simp only [List.mem_reverse, Prod.forall]

theorem equal_eq_same {comparison : Comparison ν} (byParts : ByParts good comparison.agree same)
    (consistent : Consistent good same comparison.fingerprint) {left right : ν}
    (leftGood : good left) (rightGood : good right) :
    comparison.equal left right = same left right := by
  rw [Bool.eq_iff_iff]
  refine (byParts.all_equal_iff consistent _
    (List.forall_mem_singleton.2 ⟨leftGood, rightGood⟩)).trans ?_
  exact List.forall_mem_singleton

end ByParts

end Trees

end Analog
