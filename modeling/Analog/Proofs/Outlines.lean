import Analog.Proofs.LinearLowering
import Analog.Proofs.ScalarEquality
import Analog.Series.Validation

/-!
# Outlines and their joints

One rule for each way of building waveforms says when a waveform has an outline for linear
series, and which. Joints that agree are accepted through every window and at every time.
-/

set_option autoImplicit false

namespace Analog

namespace Validation

variable {bindings : ScalarBindings}

theorem map_ends_ok_iff (f : Scalar → Scalar) (ends result : Ends) :
    mapEnds f ends = .ok result ↔
      ∃ start stop, ends.start = some start ∧ ends.stop = some stop ∧
        result = ⟨some (f start), some (f stop), ends.duration⟩ := by
  unfold mapEnds mapEnd
  simp only [Outcome.bind_ok_iff, Outcome.need_ok_iff, Outcome.pure_ok_iff]
  grind

theorem add_ends_ok_iff (left right result : Option Scalar) :
    addEnds left right = .ok result ↔
      ∃ first second, left = some first ∧ right = some second ∧
        result = some (.add first second) := by
  unfold addEnds
  simp only [Outcome.bind_ok_iff, Outcome.need_ok_iff, Outcome.pure_ok_iff]
  grind

theorem check_joint_ok_iff {left right : Scalar} {first second : Decimal} (time : Decimal)
    (leftOk : left.eval bindings = .ok first) (rightOk : right.eval bindings = .ok second) :
    checkJoint bindings time (some left) (some right) = .ok () ↔ first = second := by
  unfold checkJoint
  dsimp only
  rw [leftOk, Outcome.ok_bind, rightOk, Outcome.ok_bind]
  split_ifs with same <;> simp [same]

theorem check_polynomial_ok_iff (construct : Unit → String) (length : Decimal)
    (values : List Decimal) (done : Unit) :
    checkPolynomial .linear construct length values = .ok done ↔
      (Lowering.significant values).length ≤ 2 := by
  unfold checkPolynomial
  dsimp only
  split_ifs with high
  · simpa using high
  · simpa using high

theorem check_joint_ok_at {left right : Option Scalar} {time : Decimal} (other : Decimal)
    (agrees : checkJoint bindings time left right = .ok ()) :
    checkJoint bindings other left right = .ok () := by
  unfold checkJoint at agrees ⊢
  split at agrees
  · obtain ⟨first, firstOk, rest⟩ := (Outcome.bind_ok_iff _ _ _).1 agrees
    obtain ⟨second, secondOk, rest⟩ := (Outcome.bind_ok_iff _ _ _).1 rest
    dsimp only
    rw [firstOk, Outcome.ok_bind, secondOk, Outcome.ok_bind]
    split_ifs at rest ⊢ with same
    rfl
  · exact absurd agrees (by simp)

theorem check_joints_cons_iff (window : Option Window) (before : Option Ends) (offset : Decimal)
    (part : Ends) (rest : List Ends) :
    checkJoints bindings window before offset (part :: rest) = .ok () ↔
      if part.duration = 0 then checkJoints bindings window before offset rest = .ok ()
      else (∀ previous ∈ before, visible window offset = true →
          checkJoint bindings offset previous.stop part.start = .ok ()) ∧
        checkJoints bindings window (some part) (offset + part.duration) rest = .ok () := by
  conv_lhs => rw [checkJoints]
  simp only [Decimal.is_zero_iff]
  split_ifs with empty seen
  · rfl
  · cases before <;> simp [Outcome.check_ok_iff, seen]
  · cases before <;> simp [seen]

theorem check_dropout_iff (window : Option Window) (offset : Decimal) (left right : Ends) :
    checkDropout bindings window offset left right = .ok () ↔
      (left.duration < right.duration → visible window (offset + left.duration) = true →
          checkJoint bindings (offset + left.duration) left.stop (some Scalar.zero) = .ok ()) ∧
        (right.duration < left.duration → visible window (offset + right.duration) = true →
          checkJoint bindings (offset + right.duration) right.stop (some Scalar.zero) = .ok ()) := by
  unfold checkDropout
  dsimp only
  split_ifs with shorter seen longer seen
  · simp [shorter, seen, shorter.not_gt]
  · simp [shorter, seen, shorter.not_gt]
  · simp [longer, seen, shorter]
  · simp [longer, seen, shorter]
  · simp [longer, shorter]

theorem check_joints_ok_at {before : Option Ends} {offset : Decimal} {parts : List Ends}
    (window : Option Window) (other : Decimal)
    (agrees : checkJoints bindings none before offset parts = .ok ()) :
    checkJoints bindings window before other parts = .ok () := by
  induction parts generalizing before offset other with
  | nil => rfl
  | cons part rest ih =>
      rw [check_joints_cons_iff] at agrees ⊢
      split_ifs at agrees ⊢ with empty
      · exact ih other agrees
      · exact ⟨fun previous member _ => check_joint_ok_at other (agrees.1 previous member rfl),
          ih _ agrees.2⟩

theorem check_dropout_ok_at {left right : Ends} {offset : Decimal} (window : Option Window)
    (other : Decimal) (agrees : checkDropout bindings none offset left right = .ok ()) :
    checkDropout bindings window other left right = .ok () := by
  rw [check_dropout_iff] at agrees ⊢
  exact ⟨fun shorter _ => check_joint_ok_at _ (agrees.1 shorter rfl),
    fun longer _ => check_joint_ok_at _ (agrees.2 longer rfl)⟩

theorem sum_continuity_iff (window : Option Window) (offset : Decimal) (ends : Ends)
    (left right : Outline) :
    continuity bindings window offset (.sum ends left right) = .ok () ↔
      checkDropout bindings window offset left.ends right.ends = .ok () ∧
        continuity bindings window offset left = .ok () ∧
        continuity bindings window offset right = .ok () := by
  rw [continuity]
  simp [Outcome.check_ok_iff]

theorem append_continuity_iff (window : Option Window) (offset : Decimal) (ends : Ends)
    (parts : List Outline) :
    continuity bindings window offset (.append ends parts) = .ok () ↔
      checkJoints bindings window none offset (parts.map Outline.ends) = .ok () ∧
        continuityAll bindings window offset parts = .ok () := by
  rw [continuity]
  simp [Outcome.check_ok_iff]

theorem continuity_all_cons_iff (window : Option Window) (offset : Decimal) (part : Outline)
    (rest : List Outline) :
    continuityAll bindings window offset (part :: rest) = .ok () ↔
      continuity bindings window offset part = .ok () ∧
        continuityAll bindings window (offset + part.ends.duration) rest = .ok () := by
  rw [continuityAll]
  simp [Outcome.check_ok_iff]

end Validation

namespace Waveform

open Validation LinearSeries

variable [Natives] {bindings : ScalarBindings}

def Outlines (bindings : ScalarBindings) (waveform : Waveform) (outlined : Outline) : Prop :=
  outline bindings .linear waveform = .ok outlined

theorem validate_ok_iff (waveform : Waveform) :
    validate bindings .linear waveform = .ok () ↔
      ∃ outlined, Outlines bindings waveform outlined ∧
        continuity bindings none 0 outlined = .ok () := by
  unfold validate Outlines
  rw [Outcome.bind_ok_iff]

section Rules

variable (outlined : Outline)

theorem constant_outlines_iff (value duration : Scalar) :
    Outlines bindings (.constant value duration) outlined ↔
      ∃ length, duration.eval bindings = .ok length ∧ 0 ≤ length ∧
        outlined = .leaf ⟨some value, some value, length⟩ := by
  unfold Outlines outline
  simp only [Outcome.bind_ok_iff, lowering_leaf_ok_iff, Outcome.pure_ok_iff]
  grind

theorem ramp_outlines_iff (start stop duration : Scalar) :
    Outlines bindings (.ramp start stop duration) outlined ↔
      ∃ length, duration.eval bindings = .ok length ∧ 0 ≤ length ∧
        outlined = .leaf ⟨some start, some stop, length⟩ := by
  unfold Outlines outline
  simp only [Outcome.bind_ok_iff, lowering_leaf_ok_iff, Outcome.pure_ok_iff]
  grind

theorem poly_outlines_iff (coefficients : List Scalar) (duration : Scalar) :
    Outlines bindings (.poly coefficients duration) outlined ↔
      ∃ length values, duration.eval bindings = .ok length ∧ 0 ≤ length ∧
        Scalar.evalAll bindings coefficients = .ok values ∧
        (Lowering.significant values).length ≤ 2 ∧
        outlined = .leaf ⟨some (coefficients.headD Scalar.zero),
          some (polynomial duration coefficients), length⟩ := by
  unfold Outlines outline
  simp only [Outcome.bind_ok_iff, lowering_leaf_ok_iff, Outcome.pure_ok_iff,
    check_polynomial_ok_iff]
  grind

theorem native_not_outlines (name function : String) (duration : Scalar)
    (parameters : List Scalar) :
    ¬Outlines bindings (.native name function duration parameters) outlined := by
  unfold Outlines
  rw [outline_native]
  simp

theorem smooth_not_outlines (inner : Waveform) (radius : Scalar) (kernel : Kernel) :
    ¬Outlines bindings (.smooth inner radius kernel) outlined := by
  unfold Outlines outline
  simp

theorem negative_outlines_iff (inner : Waveform) :
    Outlines bindings (.negative inner) outlined ↔
      ∃ innerOutlined ends, Outlines bindings inner innerOutlined ∧
        mapEnds .negative innerOutlined.ends = .ok ends ∧
        outlined = .wrapped ends innerOutlined := by
  unfold Outlines
  rw [outline]
  simp only [Outcome.bind_ok_iff, Outcome.pure_ok_iff]
  grind

theorem scale_outlines_iff (factor : Scalar) (inner : Waveform) :
    Outlines bindings (.scale factor inner) outlined ↔
      ∃ innerOutlined ends, Outlines bindings inner innerOutlined ∧
        mapEnds (.mul factor) innerOutlined.ends = .ok ends ∧
        outlined = .wrapped ends innerOutlined := by
  unfold Outlines
  rw [outline]
  simp only [Outcome.bind_ok_iff, Outcome.pure_ok_iff]
  grind

theorem add_outlines_iff (left right : Waveform) :
    Outlines bindings (.add left right) outlined ↔
      ∃ leftOutlined rightOutlined ends, Outlines bindings left leftOutlined ∧
        Outlines bindings right rightOutlined ∧
        sumOfEnds leftOutlined.ends rightOutlined.ends = .ok ends ∧
        outlined = .sum ends leftOutlined rightOutlined := by
  unfold Outlines
  rw [outline]
  simp only [Outcome.bind_ok_iff, Outcome.pure_ok_iff]
  grind

theorem slice_outlines_iff (inner : Waveform) (interval : Interval) :
    Outlines bindings (.slice inner interval) outlined ↔
      ∃ innerOutlined lower upper start stop, Outlines bindings inner innerOutlined ∧
        sliceBounds bindings (fun _ => (Waveform.slice inner interval).text) interval
          innerOutlined.ends.duration = .ok (lower, upper) ∧
        boundValue bindings inner innerOutlined.ends.start interval.start = .ok start ∧
        boundValue bindings inner innerOutlined.ends.stop interval.stop = .ok stop ∧
        outlined = .cut ⟨start, stop, upper - lower⟩ lower innerOutlined := by
  unfold Outlines
  rw [outline]
  simp only [Outcome.bind_ok_iff, Outcome.pure_ok_iff]
  grind

theorem outline_all_ok_iff (target : Target) (parts : List Waveform) (outlines : List Outline) :
    outlineAll bindings target parts = .ok outlines ↔
      List.Forall₂ (fun part outlined => outline bindings target part = .ok outlined) parts
        outlines := by
  have asMap : outlineAll bindings target parts = parts.mapM (outline bindings target) := by
    induction parts with
    | nil => rfl
    | cons part rest ih => rw [outlineAll, List.mapM_cons, ih]
  rw [asMap, Outcome.mapM_ok_iff]

theorem append_outlines_iff (parts : List Waveform) :
    Outlines bindings (.append parts) outlined ↔
      ∃ outlines, List.Forall₂ (Outlines bindings) parts outlines ∧
        outlined = .append (joinEnds (outlines.map Outline.ends)) outlines := by
  unfold Outlines
  rw [outline]
  simp only [Outcome.bind_ok_iff, Outcome.pure_ok_iff, outline_all_ok_iff]
  constructor
  · rintro ⟨outlines, each, same⟩
    exact ⟨outlines, each, same.symm⟩
  · rintro ⟨outlines, each, same⟩
    exact ⟨outlines, each, same.symm⟩

theorem record_outlines_iff (name : String) (inner : Waveform) (side : Side) :
    Outlines bindings (.record name inner side) outlined ↔
      ∃ innerOutlined, Outlines bindings inner innerOutlined ∧
        outlined = .wrapped innerOutlined.ends innerOutlined := by
  unfold Outlines
  rw [outline]
  simp only [Outcome.bind_ok_iff, Outcome.pure_ok_iff]
  grind

theorem aligned_outlines_iff (inner : Waveform) (alignment : Side) (fill : FillValue) :
    Outlines bindings (.aligned inner alignment fill) outlined ↔
      ∃ innerOutlined, Outlines bindings inner innerOutlined ∧
        outlined = .wrapped innerOutlined.ends innerOutlined := by
  unfold Outlines
  rw [outline]
  simp only [Outcome.bind_ok_iff, Outcome.pure_ok_iff]
  grind

theorem sample_outlines_iff (inner : Waveform) (step : Scalar) (interpolation : Interpolation) :
    Outlines bindings (.sample inner step interpolation) outlined ↔
      interpolation = .linear ∧ ∃ length start stop, inner.duration bindings = .ok length ∧
        Validation.valueAt bindings inner Scalar.zero = .ok start ∧
        Validation.valueAt bindings inner inner.symbolicDuration = .ok stop ∧
        outlined = .leaf ⟨some start, some stop, length⟩ := by
  unfold Outlines
  rw [outline]
  unfold sampledEnds interpolationFor
  split_ifs with linear
  · simp only [Outcome.bind_ok_iff, Outcome.pure_ok_iff]
    grind
  · simp [linear]

end Rules

end Waveform

end Analog
