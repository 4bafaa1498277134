import Analog.Proofs.CompiledTasks
import Analog.Proofs.RoundedQuotients

/-!
# Limits of a device

Only breakpoints are checked against the permitted range, but the range holds at all times.
Between breakpoints the values are rounded, which does not take them beyond values that need
no more digits than quotients have.
-/

set_option autoImplicit false

namespace Analog

namespace Breakpoints

def Within (range : PermittedRange) (points : List Breakpoint) : Prop :=
  ∀ point ∈ points, range.lower ≤ point.value ∧ point.value ≤ range.upper

/-- The line between two breakpoints stays between their values, if these need no more digits than
quotients have. -/
theorem on_line_between {first second : Breakpoint} {time : Decimal}
    (increasing : first.time < second.time) (early : first.time ≤ time) (late : time ≤ second.time)
    (digits : (second.value - first.value).scale ≤ Decimal.quotientPlaces) :
    min first.value second.value ≤ onLine first second time ∧
      onLine first second time ≤ max first.value second.value := by
  have positive : 0 < second.time - first.time := sub_pos.2 increasing
  have passed : 0 ≤ time - first.time := sub_nonneg.2 early
  have remains : time - first.time ≤ second.time - first.time := sub_le_sub_right late first.time
  obtain ⟨quotient, divides⟩ := Decimal.div_of_ne_zero
    ((second.value - first.value) * (time - first.time)) (second.time - first.time) positive.ne'
  rw [onLine, divides, Option.getD_some]
  rcases le_total first.value second.value with rising | falling
  · have grows : 0 ≤ second.value - first.value := sub_nonneg.2 rising
    have above : 0 ≤ quotient := Decimal.le_div positive (Nat.zero_le _)
      (by rw [zero_mul]; exact mul_nonneg grows passed) divides
    have below : quotient ≤ second.value - first.value := Decimal.div_le positive digits
      (mul_le_mul_of_nonneg_left remains grows) divides
    rw [min_eq_left rising, max_eq_right rising]
    exact ⟨le_add_of_nonneg_right above, by linarith⟩
  · have shrinks : second.value - first.value ≤ 0 := sub_nonpos.2 falling
    have below : quotient ≤ 0 := Decimal.div_le positive (Nat.zero_le _)
      (by rw [zero_mul]; exact mul_nonpos_of_nonpos_of_nonneg shrinks passed) divides
    have above : second.value - first.value ≤ quotient := Decimal.le_div positive digits
      (mul_le_mul_of_nonpos_left remains shrinks) divides
    rw [min_eq_right falling, max_eq_left falling]
    exact ⟨by linarith, add_le_of_nonpos_right below⟩

variable {range : PermittedRange}

theorem linear_eval_within {series : LinearSeries} (formed : WellFormed series.points)
    (within : Within range series.points)
    (digits : ∀ point ∈ series.points, point.value.scale ≤ Decimal.quotientPlaces) {time : Decimal}
    (nonneg : 0 ≤ time) (reached : time ≤ series.duration) :
    range.lower ≤ series.eval time ∧ series.eval time ≤ range.upper := by
  obtain ⟨first, found, holds⟩ := holds_segment series.points formed time nonneg
  obtain ⟨inside, firstAt⟩ := List.getElem?_eq_some_iff.1 found
  unfold LinearSeries.eval
  rw [if_neg (by simpa using ⟨nonneg, reached⟩)]
  dsimp only
  rw [found]
  cases next : series.points[segment (times series.points) time + 1]? with
  | none =>
      obtain ⟨before, last, same, _⟩ := formed.split_last
      rw [same, List.getLast?_concat]
      exact within last (by simp [same])
  | some second =>
      obtain ⟨nextInside, secondAt⟩ := List.getElem?_eq_some_iff.1 next
      have ordered := List.pairwise_iff_getElem.1 formed.increasing _ _ inside nextInside
        (Nat.lt_succ_self _)
      rw [firstAt, secondAt] at ordered
      have secondMember : second ∈ series.points := List.mem_of_getElem? next
      have notYet : time ≤ second.time := by
        by_contra later
        exact absurd (holds.latest second secondMember (not_le.1 later).le) (not_le.2 ordered)
      have fewDigits : (second.value - first.value).scale ≤ Decimal.quotientPlaces :=
        (Decimal.sub_scale_le _ _).trans
          (max_le (digits second secondMember) (digits first holds.member))
      obtain ⟨above, below⟩ := on_line_between ordered holds.notLater notYet fewDigits
      have firstWithin := within first holds.member
      have secondWithin := within second secondMember
      exact ⟨(le_min firstWithin.1 secondWithin.1).trans above,
        below.trans (max_le firstWithin.2 secondWithin.2)⟩

theorem constant_eval_within {series : ConstantSeries} (formed : WellFormed series.points)
    (within : Within range series.points) {time : Decimal} (nonneg : 0 ≤ time)
    (reached : time ≤ series.duration) :
    range.lower ≤ series.eval time ∧ series.eval time ≤ range.upper := by
  obtain ⟨point, found, holds⟩ := holds_segment series.points formed time nonneg
  unfold ConstantSeries.eval ConstantSeries.stepValue
  rw [if_neg (by simpa using ⟨nonneg, reached⟩), found]
  exact within point holds.member

end Breakpoints

namespace Series

/-- A series that is constant between breakpoints, or whose values at breakpoints need no more than
sixteen digits after the point. -/
def Precise : Series → Prop
  | .constant _ => True
  | .linear line => ∀ point ∈ line.points, point.value.scale ≤ 16

instance (series : Series) : Decidable series.Precise :=
  match series with
  | .constant _ => inferInstanceAs (Decidable True)
  | .linear line => inferInstanceAs (Decidable (∀ point ∈ line.points, point.value.scale ≤ 16))

end Series

theorem CompiledChannel.check_range_within {device : Device} {compiled : CompiledChannel}
    {range : PermittedRange} (uniform : compiled.channel.target = .uniform)
    (limited : device.range? compiled.channel.coupling compiled.channel.field = some range)
    (permitted : compiled.checkRange device = .ok ()) :
    Breakpoints.Within range compiled.series.points := by
  rw [checkRange, uniform, limited] at permitted
  dsimp only at permitted
  split at permitted
  case h_1 none =>
      intro point member
      have contained := List.find?_eq_none.1 none point member
      simpa [PermittedRange.contains] using contained
  case h_2 => cases permitted

namespace Routine

/-- A task lasts no longer than the device permits, and every uniform channel stays in its permitted
range at all times. -/
theorem compiled_task_within_limits [Natives] (routine : Routine) (device : Device)
    (arguments : List Decimal) (batch : Nat) (task : Task)
    (compiles : routine.compileBatch device arguments batch = .ok task) :
    (∀ limit, device.maxTime = some limit → task.duration ≤ limit) ∧
      ∀ compiled ∈ task.channels, compiled.channel.target = .uniform →
        ∀ range, device.range? compiled.channel.coupling compiled.channel.field = some range →
          compiled.series.Precise → ∀ time, 0 ≤ time → time ≤ task.duration →
            range.lower ≤ compiled.series.eval time ∧ compiled.series.eval time ≤ range.upper := by
  obtain ⟨circuit, sequence, compilation⟩ := compilation_of_compiles compiles
  refine ⟨compilation.limited, ?_⟩
  intro compiled member uniform range limited precise time nonneg reached
  obtain ⟨given, _, made⟩ := Outcome.source_of_mem compilation.channels member
  obtain ⟨lasts, formed⟩ := compilation.series_formed member
  have within := compiled.check_range_within uniform limited made.permitted
  rw [← lasts] at reached
  cases kind : compiled.series with
  | linear line =>
      rw [kind] at formed within precise reached
      exact Breakpoints.linear_eval_within formed within precise nonneg reached
  | constant steps =>
      rw [kind] at formed within reached
      exact Breakpoints.constant_eval_within formed within nonneg reached

theorem compiled_task_within_limits_single_ramp :
    singleRamp.compileBatch tightDevice [] 0 = .ok rampTask ∧ rampTask.duration ≤ 2 ∧
      ∀ time, 0 ≤ time → time ≤ 2 →
        0 ≤ LinearSeries.eval ⟨[⟨0, 0⟩, ⟨2, 1⟩]⟩ time ∧
          LinearSeries.eval ⟨[⟨0, 0⟩, ⟨2, 1⟩]⟩ time ≤ 1 := by
  obtain ⟨short, within⟩ :=
    compiled_task_within_limits singleRamp tightDevice [] 0 rampTask single_ramp_compiles
  refine ⟨single_ramp_compiles, short 2 rfl, ?_⟩
  exact within ⟨⟨.rydberg, .detuning, .uniform⟩, [1], .linear ⟨[⟨0, 0⟩, ⟨2, 1⟩]⟩⟩
    (by simp [rampTask]) rfl ⟨0, 1⟩ rfl (by decide)

end Routine

end Analog
