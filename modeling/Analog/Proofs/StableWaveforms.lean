import Analog.Proofs.KnownForms
import Analog.Proofs.ShrinkingForms

/-!
# Waveforms that are canonical already

One pass of simplification is enough for a waveform unless it joins constants of one value
whose durations cancel. Their sum is an empty constant, which stays among the parts of its
append and is only dropped by another pass.
-/

set_option autoImplicit false

namespace Analog.Canonical

open Waveform

/-- The canonical form of a canonical form is itself exactly if none of its appends has an empty
constant among its parts. -/
theorem canonical_waveform_stable_iff (given result : Waveform)
    (made : afresh (waveform given) = .ok result) :
    (∃ again, afresh (waveform result) = .ok again ∧ again.same result = true) ↔
      ∀ node ∈ result.nodes, node.fullParts = true := by
  have simple : result.Simple := (waveform_simple given).afresh remembers_nothing made
  constructor
  · rintro ⟨again, againMade, equal⟩
    by_contra lost
    have shrunk := (waveform_shrinks result simple lost {} remembers_nothing again againMade).2
    exact shrunk.2.ne (size_of_same equal)
  · intro full
    obtain ⟨again, againMade, unchanged⟩ :=
      (waveform_again result simple full).afresh remembers_nothing
    exact ⟨again, againMade, unchanged.akin.symm.equal⟩

def heldThenRising (length : Decimal) : Waveform :=
  .append [.constant (.literal 1) (.literal length), .ramp (.literal 0) (.literal 1) (.literal 1)]

def heldTwice (first second : Decimal) : Waveform :=
  .append [.constant (.literal 1) (.literal first), .constant (.literal 1) (.literal second),
    .ramp (.literal 0) (.literal 1) (.literal 1)]

def heldForms (first second : Decimal) : Forms :=
  [(.constant (.literal 1) (.literal first), .constant (.literal 1) (.literal first)),
    (.constant (.literal 1) (.literal second), .constant (.literal 1) (.literal second)),
    (.ramp (.literal 0) (.literal 1) (.literal 1), .ramp (.literal 0) (.literal 1) (.literal 1)),
    (heldTwice first second, heldThenRising (first + second)),
    (heldThenRising (first + second), heldThenRising (first + second))]

/-- Constants of one value are joined, whatever their durations add up to. -/
theorem held_twice_form {first second : Decimal} (different : first ≠ second)
    (firstLasts : first ≠ 0) (secondLasts : second ≠ 0) :
    afresh (waveform (heldTwice first second)) = .ok (heldThenRising (first + second)) := by
  have consistent : (heldForms first second).Consistent := by
    refine Forms.Distinct.consistent ?_ ?_
    · simp [Forms.Distinct, heldForms, heldTwice, heldThenRising, Waveform.same, sameAll,
        Scalar.same, different, different.symm]
    · simp [heldForms]
  refine (append_form consistent (by simp [heldForms, heldTwice]) (.cons (constant_form consistent
    (by simp [heldForms])) (.cons (constant_form consistent (by simp [heldForms])) (.cons
    (ramp_form consistent (by simp [heldForms]) (by decide)) .nil))) ?_).afresh
  have joined : Gives (heldForms first second)
      (joinParts [] [.constant (.literal 1) (.literal first), .constant (.literal 1) (.literal second),
        .ramp (.literal 0) (.literal 1) (.literal 1)])
      [.ramp (.literal 0) (.literal 1) (.literal 1),
        .constant (.literal 1) (.literal (first + second))] :=
    join_next_form rfl firstLasts (join_next_form rfl secondLasts (join_next_form rfl (by decide) .pure))
  exact joined.bind .pure

/-- Constants whose durations do not cancel are joined once and for all. -/
theorem held_three_stable :
    afresh (waveform (heldTwice 1 2)) = .ok (heldThenRising 3) ∧
      ∃ again, afresh (waveform (heldThenRising 3)) = .ok again ∧
        again.same (heldThenRising 3) = true := by
  have made : afresh (waveform (heldTwice 1 2)) = .ok (heldThenRising 3) :=
    held_twice_form (by decide) (by decide) (by decide)
  exact ⟨made, (canonical_waveform_stable_iff (heldTwice 1 2) (heldThenRising 3) made).2 (by decide)⟩

def emptyHeldForms : Forms :=
  [(.constant (.literal 1) (.literal 0), .constant (.literal 1) (.literal 0)),
    (.ramp (.literal 0) (.literal 1) (.literal 1), .ramp (.literal 0) (.literal 1) (.literal 1)),
    (heldThenRising 0, .ramp (.literal 0) (.literal 1) (.literal 1))]

theorem empty_held_form :
    afresh (waveform (heldThenRising 0)) = .ok (.ramp (.literal 0) (.literal 1) (.literal 1)) := by
  have consistent : emptyHeldForms.Consistent :=
    Forms.Distinct.consistent (by decide) (by simp [emptyHeldForms])
  refine (append_form consistent (by simp [emptyHeldForms, heldThenRising]) (.cons (constant_form
    consistent (by simp [emptyHeldForms])) (.cons (ramp_form consistent (by simp [emptyHeldForms])
    (by decide)) .nil)) ?_).afresh
  have joined : Gives emptyHeldForms
      (joinParts [] [.constant (.literal 1) (.literal 0), .ramp (.literal 0) (.literal 1) (.literal 1)])
      [.ramp (.literal 0) (.literal 1) (.literal 1)] :=
    join_empty_form rfl (join_next_form rfl (by decide) .pure)
  exact joined.bind .pure

/-- Constants whose durations cancel leave an empty constant, which another pass drops. -/
theorem cancelling_durations_not_stable :
    afresh (waveform (heldTwice 1 (-1))) = .ok (heldThenRising 0) ∧
      ∀ again, afresh (waveform (heldThenRising 0)) = .ok again →
        again.same (heldThenRising 0) = false := by
  refine ⟨held_twice_form (by decide) (by decide) (by decide), fun again againMade => ?_⟩
  rw [empty_held_form] at againMade
  cases againMade
  rfl

end Analog.Canonical
