import Analog.Proofs.PulseDurations

/-!
# Durations as numbers and as expressions

The duration of a waveform is computed as a number, or written down as an expression that is
evaluated later. The number is refused where a leaf would last for a negative time; an expression
may hide such a leaf, in a sum or behind a longer one. Nothing else tells the two apart.
-/

set_option autoImplicit false

namespace Analog

open Scalar

variable {bindings : ScalarBindings}

namespace Waveform

def statedDuration? : Waveform → Option Scalar
  | .constant _ duration => some duration
  | .ramp _ _ duration => some duration
  | .poly _ duration => some duration
  | .native _ _ duration _ => some duration
  | _ => none

def LeavesLast (bindings : ScalarBindings) (waveform : Waveform) : Prop :=
  ∀ node ∈ waveform.nodes, ∀ duration ∈ node.statedDuration?,
    ∃ value, duration.eval bindings = .ok value ∧ 0 ≤ value

/-- A waveform that states its duration is a leaf and lasts as long as it states. -/
theorem stated_duration {waveform : Waveform} {stated : Scalar}
    (states : waveform.statedDuration? = some stated) :
    waveform.children = [] ∧ waveform.symbolicDuration = stated ∧
      ∀ bindings, waveform.duration bindings = leafDuration bindings stated := by
  cases waveform with
  | constant value duration
  | ramp start stop duration
  | poly coefficients duration
  | native name function duration parameters =>
      cases states
      exact ⟨rfl, rfl, fun _ => rfl⟩
  | _ => exact absurd states nofun

theorem leaf_lasts_iff {waveform : Waveform} {stated : Scalar}
    (states : waveform.statedDuration? = some stated) :
    waveform.LeavesLast bindings ↔ ∃ value, stated.eval bindings = .ok value ∧ 0 ≤ value := by
  have isLeaf := (stated_duration states).1
  unfold LeavesLast
  rw [each_node_iff, isLeaf, states]
  simp

theorem whole_lasts_iff {waveform : Waveform} (states : waveform.statedDuration? = none) :
    waveform.LeavesLast bindings ↔ ∀ child ∈ waveform.children, child.LeavesLast bindings := by
  unfold LeavesLast
  rw [each_node_iff, states]
  simp

/-- A waveform lasts for some time only if each of its children does. -/
theorem duration_of_child {waveform child : Waveform} {length : Decimal}
    (lasts : waveform.duration bindings = .ok length) (member : child ∈ waveform.children) :
    ∃ extent, child.duration bindings = .ok extent := by
  cases waveform with
  | constant value duration => exact absurd member List.not_mem_nil
  | ramp start stop duration => exact absurd member List.not_mem_nil
  | poly coefficients duration => exact absurd member List.not_mem_nil
  | native name function duration parameters => exact absurd member List.not_mem_nil
  | add left right =>
      rw [duration, Outcome.bind_ok_iff] at lasts
      rcases lasts with ⟨first, leftLasts, rest⟩
      rcases (Outcome.bind_ok_iff _ _ _).1 rest with ⟨second, rightLasts, _⟩
      rcases List.mem_pair.1 member with rfl | rfl
      · exact ⟨first, leftLasts⟩
      · exact ⟨second, rightLasts⟩
  | slice inner interval =>
      rw [duration, Outcome.bind_ok_iff] at lasts
      rcases lasts with ⟨extent, innerLasts, _⟩
      rw [List.mem_singleton.1 member]
      exact ⟨extent, innerLasts⟩
  | append parts =>
      rw [duration, total_duration_ok_iff] at lasts
      rcases lasts with ⟨values, each, _⟩
      rcases Outcome.target_of_mem each member with ⟨value, _, partLasts⟩
      exact ⟨value, partLasts⟩
  | negative inner
  | scale _ inner
  | record _ inner _
  | sample inner _ _
  | smooth inner _ _
  | aligned inner _ _ =>
      rw [List.mem_singleton.1 member]
      exact ⟨length, lasts⟩

/-- The parts of a waveform that lasts for a known time do so too. -/
theorem duration_of_node (waveform : Waveform) (length : Decimal)
    (lasts : waveform.duration bindings = .ok length) :
    ∀ node ∈ waveform.nodes, ∃ extent, node.duration bindings = .ok extent := by
  induction waveform using Waveform.children_induction generalizing length with
  | step waveform ih =>
      rw [each_node_iff]
      constructor
      · exact ⟨length, lasts⟩
      · intro child member
        rcases duration_of_child lasts member with ⟨extent, childLasts⟩
        exact ih child member extent childLasts

theorem leaves_last_of_duration (waveform : Waveform) (length : Decimal)
    (lasts : waveform.duration bindings = .ok length) : waveform.LeavesLast bindings := by
  intro node member stated states
  rcases duration_of_node waveform length lasts node member with ⟨extent, nodeLasts⟩
  rw [(stated_duration states).2.2, leaf_duration_ok_iff] at nodeLasts
  exact ⟨extent, nodeLasts⟩

theorem leaf_duration_of_symbolic {waveform : Waveform} {stated : Scalar} {length : Decimal}
    (states : waveform.statedDuration? = some stated) (leaves : waveform.LeavesLast bindings)
    (evaluates : waveform.symbolicDuration.eval bindings = .ok length) :
    waveform.duration bindings = .ok length := by
  rcases (leaf_lasts_iff states).1 leaves with ⟨value, valueOk, nonneg⟩
  rw [(stated_duration states).2.1, valueOk, Except.ok.injEq] at evaluates
  rw [(stated_duration states).2.2, leaf_duration_ok_iff]
  exact ⟨evaluates ▸ valueOk, evaluates ▸ nonneg⟩

/-- Where no leaf lasts for a negative time, the value of the expression is the duration. -/
theorem duration_of_symbolic (waveform : Waveform) (length : Decimal)
    (tidied : waveform.Each (·.tidy)) (leaves : waveform.LeavesLast bindings)
    (evaluates : waveform.symbolicDuration.eval bindings = .ok length) :
    waveform.duration bindings = .ok length := by
  induction waveform using Waveform.parts_induction generalizing length with
  | constant value duration
  | ramp start stop duration
  | poly coefficients duration
  | native name function duration parameters =>
      exact leaf_duration_of_symbolic rfl leaves evaluates
  | add left right leftIh rightIh =>
      have inside := ((each_iff _).1 tidied).2
      rw [whole_lasts_iff rfl] at leaves
      have leftTidy := inside left (by simp [children])
      have rightTidy := inside right (by simp [children])
      rw [symbolicDuration, eval_greater_ok_iff (symbolic_duration_each tidy_family left leftTidy)
        (symbolic_duration_each tidy_family right rightTidy)] at evaluates
      rcases evaluates with ⟨first, second, leftOk, rightOk, rfl⟩
      have leftLasts := leftIh first leftTidy (leaves left (by simp [children])) leftOk
      have rightLasts := rightIh second rightTidy (leaves right (by simp [children])) rightOk
      rw [duration, leftLasts, Outcome.ok_bind, rightLasts]
      rfl
  | slice inner interval ih =>
      have inside := ((each_iff _).1 tidied).2
      rw [whole_lasts_iff rfl] at leaves
      rw [symbolicDuration, eval_slice_ok_iff] at evaluates
      rcases evaluates with ⟨extent, start, stop, extentOk, startOk, stopOk, cut⟩
      rcases (slice_length_ok_iff _ _ _ _).1 cut with ⟨ordered, rfl⟩
      have innerLasts := ih extent (inside inner (by simp [children]))
        (leaves inner (by simp [children])) extentOk
      have bounds := (slice_bounds_ok_iff bindings (fun _ => (Waveform.slice inner interval).text)
        interval extent _ _).2 ⟨start, stop, startOk, stopOk, rfl, rfl, ordered⟩
      rw [duration, innerLasts, Outcome.ok_bind, bounds]
      rfl
  | append parts ih =>
      have inside := ((each_iff _).1 tidied).2
      rw [whole_lasts_iff rfl] at leaves
      rw [symbolicDuration, symbolic_durations_eq_map, sum_of_durations_ok_iff] at evaluates
      rcases evaluates with ⟨values, each, rfl⟩
      rw [duration, total_duration_ok_iff]
      refine ⟨values, ?_, rfl⟩
      apply Outcome.related_of_mem (List.forall₂_map_left_iff.1 each)
      intro part member value partOk
      exact ih part member value (inside part member) (leaves part member) partOk
  | negative inner ih
  | scale _ inner ih
  | record _ inner _ ih
  | sample inner _ _ ih
  | smooth inner _ _ ih
  | aligned inner _ _ ih =>
      rw [whole_lasts_iff rfl] at leaves
      exact ih length (((each_iff _).1 tidied).2 inner (by simp [children]))
        (leaves inner (by simp [children])) evaluates

/-- A waveform whose scalars are tidy, as their constructors leave them, lasts for a time exactly
when this time is the value of its duration as an expression and no leaf lasts for a negative
time. -/
theorem duration_iff_symbolic (waveform : Waveform) (bindings : ScalarBindings) (length : Decimal)
    (tidied : waveform.Each (·.tidy)) :
    waveform.duration bindings = .ok length ↔
      waveform.symbolicDuration.eval bindings = .ok length ∧ waveform.LeavesLast bindings := by
  constructor
  · intro lasts
    exact ⟨(symbolic_duration_known waveform length tidied lasts).evaluates,
      leaves_last_of_duration waveform length lasts⟩
  · intro known
    exact duration_of_symbolic waveform length tidied known.2 known.1

/-- The end of a sum of two waveforms, whose durations are written alike, and a wait. -/
def trimmedSum : Waveform :=
  .append [.slice (.add (.constant (.literal 1) (.variable "x"))
      (.ramp (.literal 0) (.literal 1) (.variable "x"))) ⟨some (.literal 1), none⟩,
    .constant (.literal 0) (.variable "y")]

def hiddenNegative : Waveform :=
  .add (.constant (.literal 1) (.variable "x"))
    (.constant (.literal 2) (.negative (.variable "x")))

theorem duration_iff_symbolic_trimmed_sum :
    trimmedSum.duration ⟨[("x", 3), ("y", 4)]⟩ = .ok 6 ∧
      hiddenNegative.symbolicDuration.eval ⟨[("x", 3)]⟩ = .ok 3 ∧
      ¬ hiddenNegative.LeavesLast ⟨[("x", 3)]⟩ := by
  have trimmed := duration_iff_symbolic trimmedSum ⟨[("x", 3), ("y", 4)]⟩ 6 (by decide)
  have hidden := duration_iff_symbolic hiddenNegative ⟨[("x", 3)]⟩ 3 (by decide)
  have evaluates : hiddenNegative.symbolicDuration.eval ⟨[("x", 3)]⟩ = .ok 3 := rfl
  refine ⟨trimmed.2 ⟨rfl, ?_⟩, evaluates, fun leaves => ?_⟩
  · exact leaves_last_of_duration trimmedSum 6 rfl
  · exact nomatch hidden.2 ⟨evaluates, leaves⟩

end Waveform

end Analog
