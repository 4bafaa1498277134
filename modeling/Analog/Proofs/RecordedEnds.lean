import Analog.Proofs.EndValues

/-!
# Going on from a recorded end

The value at the end of a waveform can be recorded, and a level of this value can follow the
waveform. It does so without a jump exactly if the recorded value is also the one that the
series ends with, and the one that the validator finds. Both can miss it by rounding.
-/

set_option autoImplicit false

namespace Analog.Waveform

open LinearSeries Validation

section

variable [Natives] {bindings : ScalarBindings}

/-- A waveform, and a level of the given value that follows it for one unit of time. -/
def thenLevel (waveform : Waveform) (value : Decimal) : Waveform :=
  .append [waveform, .constant (.literal value) (.literal 1)]

omit [Natives] in
theorem then_level_filled {waveform : Waveform} (value : Decimal)
    (filled : ∀ node ∈ waveform.exposed, node ≠ .append []) :
    ∀ node ∈ (waveform.thenLevel value).exposed, node ≠ .append [] := by
  simpa [thenLevel, exposed, exposedAll, or_imp, forall_and] using filled

omit [Natives] in
theorem touch_level_iff (ends : Ends) (value : Decimal) (stop : Option Scalar)
    (duration : Decimal) :
    Touch bindings ends ⟨some (.literal value), stop, duration⟩ ↔
      ∃ expression ∈ ends.stop, expression.eval bindings = .ok value := by
  unfold Touch
  dsimp only
  cases ends.stop with
  | none => simp [checkJoint]
  | some expression =>
      simp only [Option.mem_some_iff, exists_eq_left']
      cases found : expression.eval bindings with
      | error failure => simp [checkJoint, found, Outcome.bind_ok_iff]
      | ok number =>
          rw [check_joint_ok_iff 0 found (show (Scalar.literal value).eval bindings = .ok value from
            rfl), Except.ok.injEq]

/-- The validator accepts the level after a waveform if the outline ends at its value. -/
theorem level_validates_iff {waveform : Waveform} {length value : Decimal}
    (known : waveform.duration bindings = .ok length) (positive : 0 < length) :
    validate bindings .linear (waveform.thenLevel value) = .ok () ↔
      validate bindings .linear waveform = .ok () ∧
        ∃ outlined, outline bindings .linear waveform = .ok outlined ∧
          ∃ stop ∈ outlined.ends.stop, stop.eval bindings = .ok value := by
  have level : ∀ outlined, Outlines bindings (.constant (.literal value) (.literal 1)) outlined ↔
      outlined = .leaf ⟨some (.literal value), some (.literal value), 1⟩ := by
    intro outlined
    rw [constant_outlines_iff]
    simp [Scalar.eval]
  have joined : ∀ outlined after, Outlines bindings waveform outlined →
      Outlines bindings (.constant (.literal value) (.literal 1)) after →
      (continuity bindings none 0 (.append (joinEnds ([outlined, after].map Outline.ends))
          [outlined, after]) = .ok () ↔
        continuity bindings none 0 outlined = .ok () ∧
          ∃ stop ∈ outlined.ends.stop, stop.eval bindings = .ok value) := by
    intro outlined after outlines afterOutlines
    rw [level] at afterOutlines
    subst afterOutlines
    have lasts := Except.ok.inj ((duration_of_outlines waveform outlined outlines).symm.trans known)
    have lasting : outlined.ends.duration ≠ 0 := by
      rw [lasts]
      exact positive.ne'
    rw [append_continuity_iff, check_joints_iff_chain, continuity_all_iff,
      ← touch_level_iff outlined.ends value (some (.literal value)) 1]
    have levelEnds : (Outline.leaf ⟨some (.literal value), some (.literal value), 1⟩).ends =
        ⟨some (.literal value), some (.literal value), 1⟩ := rfl
    simp [levelEnds, lasting, continuity, and_comm]
  simp only [validate_ok_iff]
  constructor
  · rintro ⟨_, whole, continuous⟩
    obtain ⟨found, each, rfl⟩ := (append_outlines_iff _ _).1 whole
    cases each with
    | @cons _ outlined _ _ outlines rest =>
        cases rest with
        | @cons _ after _ _ afterOutlines none =>
            cases none
            obtain ⟨continuous, reached⟩ :=
              (joined outlined after outlines afterOutlines).1 continuous
            exact ⟨⟨outlined, outlines, continuous⟩, outlined, outlines, reached⟩
  · rintro ⟨⟨outlined, outlines, continuous⟩, found, foundOutlines, reached⟩
    rw [Except.ok.inj (foundOutlines.symm.trans outlines)] at reached
    have each : List.Forall₂ (Outlines bindings) [waveform, .constant (.literal value) (.literal 1)]
        [outlined, _] :=
      List.Forall₂.cons outlines (List.Forall₂.cons ((level _).2 rfl) List.Forall₂.nil)
    exact ⟨_, (append_outlines_iff _ _).2 ⟨_, each, rfl⟩,
      (joined outlined _ outlines ((level _).2 rfl)).2 ⟨continuous, reached⟩⟩

/-- The level after a waveform can be lowered if the series ends at its value. -/
theorem level_lowers_iff {waveform : Waveform} {length value : Decimal}
    (filled : ∀ node ∈ waveform.exposed, node ≠ .append [])
    (known : waveform.duration bindings = .ok length) (positive : 0 < length) :
    (∃ joined, lowerLinear bindings (waveform.thenLevel value) = .ok joined) ↔
      ∃ series, lowerLinear bindings waveform = .ok series ∧
        series.eval series.duration = value := by
  have level : ∀ series, Lowers bindings (.constant (.literal value) (.literal 1)) series ↔
      series = line 1 value value := by
    intro series
    rw [constant_lowers_iff]
    simp [Scalar.eval]
  have levelSpans : Spans (line 1 value value) 1 value value := by
    have spans := @line_spans 1 value value zero_le_one
    rwa [if_neg one_ne_zero] at spans
  have joined : ∀ series, Lowers bindings waveform series →
      ((∃ whole, concatenate (some series) [some (line 1 value value)] = .ok (some whole)) ↔
        series.eval series.duration = value) := by
    intro series lowers
    have spans := spans_of_lowers filled lowers
    have lasts := Except.ok.inj ((duration_of_lowers filled lowers).symm.trans known)
    have lasting : series.duration ≠ 0 := by
      rw [lasts]
      exact positive.ne'
    have chain := @joins_iff_chain series [line 1 value value] _ _ _ spans
      (by simpa using ⟨1, value, value, levelSpans⟩)
    rw [List.map_singleton] at chain
    rw [chain, List.filter_cons_of_pos (by simpa using lasting),
      List.filter_cons_of_pos (by simp [levelSpans.lasts]), List.filter_nil,
      List.isChain_cons_cons, and_iff_left (List.isChain_singleton _), Meet,
      levelSpans.eval_start]
  simp only [lower_linear_ok_iff, thenLevel,
    append_lowers_iff _ (then_level_filled value filled)]
  constructor
  · rintro ⟨whole, first, rest, _, _, same, lowers, restLower, joins⟩
    cases same
    cases restLower with
    | @cons _ after _ _ afterLowers none =>
        cases none
        rw [level] at afterLowers
        subst afterLowers
        exact ⟨first, lowers, (joined first lowers).1 ⟨whole, joins⟩⟩
  · rintro ⟨series, lowers, reached⟩
    obtain ⟨whole, joins⟩ := (joined series lowers).2 reached
    exact ⟨whole, series, [line 1 value value], waveform, _, rfl, lowers,
      List.Forall₂.cons ((level _).2 rfl) List.Forall₂.nil, joins⟩

/-- A level of the value recorded at the end of a waveform follows it without a jump exactly if
that value is also the one that the outline, and the series, of the waveform end with; and it is
if the end of the waveform is known exactly. -/
theorem recorded_end_joins (waveform : Waveform) (length : Decimal) (series : LinearSeries)
    (filled : ∀ node ∈ waveform.exposed, node ≠ .append [])
    (known : waveform.duration bindings = .ok length) (positive : 0 < length)
    (lowers : lowerLinear bindings waveform = .ok series)
    (valid : validate bindings .linear waveform = .ok ()) :
    ∃ value, waveform.valueAt bindings length = .ok value ∧
      (validate bindings .linear (waveform.thenLevel value) = .ok () ↔
        ∃ outlined, outline bindings .linear waveform = .ok outlined ∧
          ∃ stop ∈ outlined.ends.stop, stop.eval bindings = .ok value) ∧
      ((∃ joined, lowerLinear bindings (waveform.thenLevel value) = .ok joined) ↔
        series.eval series.duration = value) ∧
      (ExactEnd bindings waveform →
        validate bindings .linear (waveform.thenLevel value) = .ok () ∧
          ∃ joined, lowerLinear bindings (waveform.thenLevel value) = .ok joined) := by
  have seriesLasts := duration_of_lowers filled ((lower_linear_ok_iff _ _).1 lowers)
  obtain ⟨meaning, _, _, means, total, _⟩ :=
    spanned_of_lowers waveform series filled ((lower_linear_ok_iff _ _).1 lowers)
  have lasts := Except.ok.inj ((duration_of_signal means).symm.trans known)
  obtain ⟨value, valued⟩ := total length
  have validates := @level_validates_iff _ bindings waveform length value known positive
  have lowered := @level_lowers_iff _ bindings waveform length value filled known positive
  rw [and_iff_right valid] at validates
  have interpolates : (∃ found, lowerLinear bindings waveform = .ok found ∧
      found.eval found.duration = value) ↔ series.eval series.duration = value := by
    simp [lowers]
  rw [interpolates] at lowered
  refine ⟨value, ?_, validates, lowered, fun precise => ?_⟩
  · rw [valueAt, means, Outcome.ok_bind, valued]
  · rw [Except.ok.inj (known.symm.trans seriesLasts)] at positive
    obtain ⟨reached, ends⟩ := ends_at_of_lowers waveform series precise
      ((lower_linear_ok_iff _ _).1 lowers) positive
    have same := ends.evaluated meaning means
    rw [lasts, valued, Except.ok.injEq] at same
    subst same
    obtain ⟨outlined, outlines, _⟩ := (validate_ok_iff waveform).1 valid
    exact ⟨validates.2 ⟨outlined, outlines, ends.outlined outlined outlines⟩,
      lowered.2 (ends.interpolated series lowers)⟩

end

def secondLine : Waveform :=
  .slice (.append [.ramp (.literal 0) (.literal 1) (.literal 3),
    .ramp (.literal 1) (.literal 3) (.literal 2)]) ⟨some (.literal 3), none⟩

theorem second_line_exact : ExactEnd .empty secondLine := by
  refine ⟨by simp [secondLine, exposed, exposedAll], by decide, ?_, ?_⟩
  · intro start stop duration member first last startOk stopOk
    simp only [secondLine, nodes, nodesAll, List.mem_cons, List.append_nil, List.cons_append,
      List.nil_append, List.not_mem_nil, or_false, reduceCtorEq, false_or, ramp.injEq] at member
    rcases member with ⟨rfl, rfl, rfl⟩ | ⟨rfl, rfl, rfl⟩ <;> cases startOk <;> cases stopOk <;> decide
  · intro inner interval member
    simp only [secondLine, exposed, exposedAll, List.mem_cons, List.append_nil, List.cons_append,
      List.nil_append, List.not_mem_nil, or_false, reduceCtorEq, slice.injEq] at member
    obtain ⟨rfl, rfl⟩ := member
    exact Or.inl rfl

theorem recorded_end_joins_second_line :
    ∃ value, secondLine.valueAt .empty 2 = .ok value ∧
      validate .empty .linear (secondLine.thenLevel value) = .ok () ∧
      ∃ joined, lowerLinear .empty (secondLine.thenLevel value) = .ok joined := by
  obtain ⟨value, valued, _, _, joins⟩ := recorded_end_joins secondLine 2 ⟨[⟨0, 1⟩, ⟨2, 3⟩]⟩
    second_line_exact.filled rfl (by decide) rfl rfl
  exact ⟨value, valued, joins second_line_exact⟩

def twoThirds : Waveform :=
  .slice (.ramp (.literal 0) (.literal 1) (.literal 3)) ⟨some (.literal 0), some (.literal 2)⟩

/-- The recorded end is rounded up, as that of the series is. The validator divides first, so it
finds a smaller number and reports a jump. -/
theorem two_thirds_rejected :
    (∀ node ∈ twoThirds.exposed, node ≠ .append []) ∧
      twoThirds.duration .empty = .ok 2 ∧
      lowerLinear .empty twoThirds = .ok ⟨[⟨0, 0⟩, ⟨2, .ofScaled 6666666666666667 16⟩]⟩ ∧
      validate .empty .linear twoThirds = .ok () ∧
      twoThirds.valueAt .empty 2 = .ok (.ofScaled 6666666666666667 16) ∧
      validate .empty .linear (twoThirds.thenLevel (.ofScaled 6666666666666667 16)) ≠ .ok () := by
  refine ⟨by simp [twoThirds, exposed], rfl, rfl, rfl, rfl, by decide⟩

end Analog.Waveform
