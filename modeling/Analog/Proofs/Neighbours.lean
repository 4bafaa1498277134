import Mathlib.Data.List.Chain
import Analog.Proofs.ConstantLowering
import Analog.Proofs.Durations
import Analog.Proofs.Outlines

/-!
# Waveforms one after the other, two at a time

Joints agree, and series can be joined, exactly when every two neighbours that last do. What is
checked of a joint does not depend on the time at which it stands. A waveform passes if it can be
validated and lowered.
-/

set_option autoImplicit false

namespace Analog.Validation

variable {bindings : ScalarBindings}

def Window.moved (delay : Decimal) (window : Window) : Window :=
  ⟨window.lower + delay, window.upper + delay⟩

theorem visible_moved (window : Option Window) (time delay : Decimal) :
    visible (window.map (Window.moved delay)) (time + delay) = visible window time := by
  cases window <;> simp [visible, Window.moved]

theorem narrow_moved (window : Option Window) (lower upper delay : Decimal) :
    narrow (window.map (Window.moved delay)) (lower + delay) (upper + delay) =
      (narrow window lower upper).moved delay := by
  cases window with
  | none => rfl
  | some outer => simp [narrow, Window.moved, max_add_add_right, min_add_add_right]

theorem check_joint_ok_anywhere (left right : Option Scalar) (time other : Decimal) :
    checkJoint bindings time left right = .ok () ↔ checkJoint bindings other left right = .ok () :=
  ⟨check_joint_ok_at other, check_joint_ok_at time⟩

theorem check_joints_moved (window : Option Window) (before : Option Ends) (offset delay : Decimal)
    (parts : List Ends) :
    checkJoints bindings (window.map (Window.moved delay)) before (offset + delay) parts = .ok () ↔
      checkJoints bindings window before offset parts = .ok () := by
  induction parts generalizing before offset with
  | nil => rfl
  | cons part rest ih =>
      rw [check_joints_cons_iff, check_joints_cons_iff, visible_moved, add_right_comm, ih, ih]
      simp only [check_joint_ok_anywhere _ _ (offset + delay) offset]

theorem check_dropout_moved (window : Option Window) (offset delay : Decimal) (left right : Ends) :
    checkDropout bindings (window.map (Window.moved delay)) (offset + delay) left right = .ok () ↔
      checkDropout bindings window offset left right = .ok () := by
  rw [check_dropout_iff, check_dropout_iff, add_right_comm offset delay left.duration,
    add_right_comm offset delay right.duration, visible_moved, visible_moved,
    check_joint_ok_anywhere left.stop _ _ (offset + left.duration),
    check_joint_ok_anywhere right.stop _ _ (offset + right.duration)]

mutual

/-- Whether all joints agree does not depend on when a waveform begins. -/
theorem continuity_moved (window : Option Window) (offset delay : Decimal) :
    (outlined : Outline) →
    (continuity bindings (window.map (Window.moved delay)) (offset + delay) outlined = .ok () ↔
      continuity bindings window offset outlined = .ok ())
  | .leaf _ => Iff.rfl
  | .wrapped _ inner => continuity_moved window offset delay inner
  | .sum ends left right => by
      rw [sum_continuity_iff, sum_continuity_iff, check_dropout_moved,
        continuity_moved window offset delay left, continuity_moved window offset delay right]
  | .cut ends shift inner => by
      have inside := continuity_moved (some (narrow window offset (offset + ends.duration)))
        (offset - shift) delay inner
      rw [Option.map_some, ← narrow_moved, add_right_comm offset ends.duration delay,
        sub_add_eq_add_sub] at inside
      exact inside
  | .append ends parts => by
      rw [append_continuity_iff, append_continuity_iff, check_joints_moved,
        continuity_all_moved window offset delay parts]

theorem continuity_all_moved (window : Option Window) (offset delay : Decimal) :
    (parts : List Outline) →
    (continuityAll bindings (window.map (Window.moved delay)) (offset + delay) parts = .ok () ↔
      continuityAll bindings window offset parts = .ok ())
  | [] => Iff.rfl
  | part :: rest => by
      rw [continuity_all_cons_iff, continuity_all_cons_iff,
        continuity_moved window offset delay part, add_right_comm,
        continuity_all_moved window (offset + part.ends.duration) delay rest]

end

theorem continuity_all_iff (offset : Decimal) (parts : List Outline) :
    continuityAll bindings none offset parts = .ok () ↔
      ∀ part ∈ parts, continuity bindings none 0 part = .ok () := by
  induction parts generalizing offset with
  | nil => simp [continuityAll]
  | cons part rest ih =>
      have start : continuity bindings none offset part = .ok () ↔
          continuity bindings none 0 part = .ok () := by
        have moved := @continuity_moved bindings none 0 offset part
        rwa [Option.map_none, zero_add] at moved
      rw [continuity_all_cons_iff, start, ih, List.forall_mem_cons]

/-- The expressions have one value where the first ends and the second begins. -/
def Touch (bindings : ScalarBindings) (first second : Ends) : Prop :=
  checkJoint bindings 0 first.stop second.start = .ok ()

/-- All joints agree exactly when every two neighbours that last agree. -/
theorem check_joints_iff_chain (before : Option Ends) (offset : Decimal) (parts : List Ends) :
    checkJoints bindings none before offset parts = .ok () ↔
      (before.toList ++ parts.filter (·.duration ≠ 0)).IsChain (Touch bindings) := by
  induction parts generalizing before offset with
  | nil => cases before <;> simp [checkJoints]
  | cons part rest ih =>
      rw [check_joints_cons_iff]
      by_cases empty : part.duration = 0
      · simp [empty, ih]
      · have next : (∀ previous ∈ before, visible none offset = true →
            checkJoint bindings offset previous.stop part.start = .ok ()) ↔
            ∀ previous ∈ before, Touch bindings previous part := by
          simp [visible, Touch, check_joint_ok_anywhere _ _ offset 0]
        rw [if_neg empty, next, ih, List.filter_cons_of_pos (by simpa using empty)]
        cases before <;> simp

end Analog.Validation

namespace Analog.LinearSeries

/-- The first series ends at the value at which the second begins. -/
def Meet (first second : LinearSeries) : Prop :=
  first.eval first.duration = second.eval 0

/-- Series can be joined exactly when every two neighbours that last meet. -/
theorem joins_iff_chain {joined : LinearSeries} {parts : List LinearSeries}
    {duration first last : Decimal} (spans : Spans joined duration first last)
    (each : ∀ part ∈ parts, ∃ length start stop, Spans part length start stop) :
    (∃ whole, concatenate (some joined) (parts.map some) = .ok (some whole)) ↔
      ((joined :: parts).filter (·.duration ≠ 0)).IsChain Meet := by
  induction parts generalizing joined duration first last with
  | nil => by_cases empty : joined.duration = 0 <;> simp [concatenate, empty]
  | cons part rest ih =>
      obtain ⟨⟨length, start, stop, partSpans⟩, restEach⟩ := List.forall_mem_cons.1 each
      rw [List.map_cons, concatenate_cons]
      by_cases partEmpty : part.duration = 0
      · rw [if_pos (by simpa using partEmpty), ih spans restEach]
        simp [List.filter_cons, partEmpty]
      by_cases joinedEmpty : joined.duration = 0
      · rw [if_neg (by simpa using partEmpty), if_pos (by simpa using joinedEmpty),
          ih partSpans restEach]
        simp [List.filter_cons, joinedEmpty]
      · rw [if_neg (by simpa using partEmpty), if_neg (by simpa using joinedEmpty)]
        rw [spans.lasts] at joinedEmpty
        have positive : 0 < duration := lt_of_le_of_ne spans.nonneg (Ne.symm joinedEmpty)
        have longer := append_spans spans partSpans positive
        have longerLasts : duration + length ≠ 0 :=
          (add_pos_of_pos_of_nonneg positive partSpans.nonneg).ne'
        -- What is joined so far ends where its last part does.
        have sameEnd : ∀ next, Meet ⟨Breakpoints.joined joined.points part.points⟩ next ↔ Meet part next := by
          intro next
          unfold Meet
          rw [longer.lasts, longer.eval_stop, partSpans.lasts, partSpans.eval_stop]
        have meets : Meet joined part ↔ last = start := by
          unfold Meet
          rw [spans.lasts, spans.eval_stop, partSpans.eval_start]
        have rejoined := ih longer restEach
        rw [List.filter_cons_of_pos (by simpa [longer.lasts] using longerLasts),
          List.isChain_cons] at rejoined
        rw [List.filter_cons_of_pos (by simpa [spans.lasts] using joinedEmpty),
          List.filter_cons_of_pos (by simpa using partEmpty), List.isChain_cons_cons,
          List.isChain_cons, meets]
        simp only [sameEnd] at rejoined
        simp only [Outcome.bind_ok_iff, append_ok_iff spans partSpans]
        rw [← rejoined]
        constructor
        · rintro ⟨whole, _, ⟨same, rfl⟩, joins⟩
          exact ⟨same, whole, joins⟩
        · rintro ⟨same, whole, joins⟩
          exact ⟨whole, _, ⟨same, rfl⟩, joins⟩

end Analog.LinearSeries

namespace Analog.Validation

theorem join_ends_duration (parts : List Ends) :
    (joinEnds parts).duration = (parts.map Ends.duration).sum := by
  have follow : ∀ (rest : List Ends) (before : Ends),
      (rest.foldl followEnds before).duration = before.duration + (rest.map Ends.duration).sum := by
    intro rest
    induction rest with
    | nil => simp
    | cons part rest ih =>
        intro before
        have longer : (followEnds before part).duration = before.duration + part.duration := by
          unfold followEnds
          split_ifs <;> rfl
        rw [List.foldl_cons, ih, longer, List.map_cons, List.sum_cons, add_assoc]
  unfold joinEnds
  rw [follow, zero_add]

theorem sum_of_ends_duration {left right ends : Ends} (added : sumOfEnds left right = .ok ends) :
    ends.duration = max left.duration right.duration := by
  unfold sumOfEnds at added
  obtain ⟨start, _, rest⟩ := (Outcome.bind_ok_iff _ _ _).1 added
  split_ifs at rest with shorter longer
  · rw [Outcome.pure_ok_iff] at rest
    rw [← rest, max_eq_right shorter.le]
  · rw [Outcome.pure_ok_iff] at rest
    rw [← rest, max_eq_left longer.le]
  · obtain ⟨stop, _, rest⟩ := (Outcome.bind_ok_iff _ _ _).1 rest
    rw [Outcome.pure_ok_iff] at rest
    rw [← rest, max_eq_left (not_lt.1 shorter)]

end Analog.Validation

namespace Analog.Waveform

open Validation LinearSeries

variable {bindings : ScalarBindings}

def lasts (bindings : ScalarBindings) (waveform : Waveform) : Bool :=
  match waveform.duration bindings with
  | .ok length => decide (length ≠ 0)
  | .error _ => false

theorem lasts_of_duration {waveform : Waveform} {length : Decimal}
    (lasts : waveform.duration bindings = .ok length) :
    waveform.lasts bindings = decide (length ≠ 0) := by
  unfold Waveform.lasts
  rw [lasts]

variable [Natives]

theorem duration_of_outlines (waveform : Waveform) (outlined : Outline)
    (outlines : Outlines bindings waveform outlined) :
    waveform.duration bindings = .ok outlined.ends.duration := by
  induction waveform using Waveform.parts_induction generalizing outlined with
  | constant value duration =>
      obtain ⟨length, durationOk, nonneg, rfl⟩ := (constant_outlines_iff _ _ _).1 outlines
      exact (leaf_duration_ok_iff _ _ _).2 ⟨durationOk, nonneg⟩
  | ramp start stop duration =>
      obtain ⟨length, durationOk, nonneg, rfl⟩ := (ramp_outlines_iff _ _ _ _).1 outlines
      exact (leaf_duration_ok_iff _ _ _).2 ⟨durationOk, nonneg⟩
  | poly coefficients duration =>
      obtain ⟨length, _, durationOk, nonneg, _, _, rfl⟩ := (poly_outlines_iff _ _ _).1 outlines
      exact (leaf_duration_ok_iff _ _ _).2 ⟨durationOk, nonneg⟩
  | native name function duration parameters =>
      exact absurd outlines (native_not_outlines _ _ _ _ _)
  | negative inner ih =>
      obtain ⟨innerOutlined, ends, inside, mapped, rfl⟩ := (negative_outlines_iff _ _).1 outlines
      obtain ⟨_, _, _, _, rfl⟩ := (map_ends_ok_iff _ _ _).1 mapped
      exact ih innerOutlined inside
  | add left right leftIh rightIh =>
      obtain ⟨leftOutlined, rightOutlined, ends, leftInside, rightInside, added, rfl⟩ :=
        (add_outlines_iff _ _ _).1 outlines
      rw [duration, leftIh leftOutlined leftInside, rightIh rightOutlined rightInside]
      change Except.ok (max leftOutlined.ends.duration rightOutlined.ends.duration) = _
      rw [← sum_of_ends_duration added]
      rfl
  | scale factor inner ih =>
      obtain ⟨innerOutlined, ends, inside, mapped, rfl⟩ := (scale_outlines_iff _ _ _).1 outlines
      obtain ⟨_, _, _, _, rfl⟩ := (map_ends_ok_iff _ _ _).1 mapped
      exact ih innerOutlined inside
  | slice inner interval ih =>
      obtain ⟨innerOutlined, lower, upper, start, stop, inside, bounds, _, _, rfl⟩ :=
        (slice_outlines_iff _ _ _).1 outlines
      rw [duration, ih innerOutlined inside, Outcome.ok_bind, bounds]
      rfl
  | append parts ih =>
      obtain ⟨found, each, rfl⟩ := (append_outlines_iff _ _).1 outlines
      refine (total_duration_ok_iff _ _).2 ⟨(found.map Outline.ends).map Ends.duration, ?_,
        join_ends_duration _⟩
      rw [List.map_map, List.forall₂_map_right_iff]
      exact Outcome.related_of_mem each fun part member outlined => ih part member outlined
  | record name inner side ih =>
      obtain ⟨innerOutlined, inside, rfl⟩ := (record_outlines_iff _ _ _ _).1 outlines
      exact ih innerOutlined inside
  | sample inner step interpolation =>
      obtain ⟨_, length, _, _, lasts, _, _, rfl⟩ := (sample_outlines_iff _ _ _ _).1 outlines
      exact lasts
  | smooth inner radius kernel => exact absurd outlines (smooth_not_outlines _ _ _ _)
  | aligned inner alignment fill ih =>
      obtain ⟨innerOutlined, inside, rfl⟩ := (aligned_outlines_iff _ _ _ _).1 outlines
      exact ih innerOutlined inside

theorem duration_of_lowers {waveform : Waveform} {series : LinearSeries}
    (filled : ∀ node ∈ waveform.exposed, node ≠ .append [])
    (lowers : Lowers bindings waveform series) :
    waveform.duration bindings = .ok series.duration := by
  obtain ⟨meaning, _, _, means, _, spans⟩ := spanned_of_lowers waveform series filled lowers
  rw [duration_of_signal means, spans.lasts]

def Passes (bindings : ScalarBindings) (target : Target) (waveform : Waveform) : Prop :=
  waveform.validate bindings target = .ok () ∧
    ∃ series, waveform.lower bindings target = .ok series

end Analog.Waveform
