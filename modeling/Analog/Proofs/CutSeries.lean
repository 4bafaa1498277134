import Analog.Proofs.EqualSeries
import Analog.Proofs.ThinnedSeries

/-!
# Series that are cut and put together

A series that is cut in two comes back when its parts are put together, and two series that are put
together come back when the whole is cut where they meet. What comes back may have a breakpoint
more, at the cut. Linear series are compared at their breakpoints, where nothing is rounded;
constant series are compared step by step, and their ends follow from the steps before.
-/

set_option autoImplicit false

namespace Analog

open Breakpoints

namespace Breakpoints

variable {points first second : List Breakpoint}

/-- The breakpoints of a whole are those of the first part and those of the second, moved. -/
theorem mem_times_joined (firstFormed : WellFormed first) (secondFormed : WellFormed second)
    (time : Decimal) :
    time ∈ times (joined first second) ↔
      time ∈ times first ∨ ∃ other ∈ times second, other + duration first = time := by
  have moved : ∀ other ∈ times second, other + duration first ∈ times (joined first second) := by
    intro other member
    rcases List.mem_map.1 member with ⟨point, pointMember, rfl⟩
    refine List.mem_map.2 ⟨point.shift (duration first), ?_, rfl⟩
    exact List.mem_append_right _ (List.mem_map_of_mem pointMember)
  constructor
  · intro member
    rcases List.mem_map.1 member with ⟨point, pointMember, rfl⟩
    rcases List.mem_append.1 pointMember with early | late
    · exact Or.inl (List.mem_map_of_mem ((List.dropLast_subset _) early))
    · rcases List.mem_map.1 late with ⟨original, originalMember, rfl⟩
      exact Or.inr ⟨original.time, List.mem_map_of_mem originalMember, rfl⟩
  · rintro (early | ⟨other, member, rfl⟩)
    · rcases (last_time_le firstFormed early).eq_or_lt with atEnd | before
      · rw [atEnd, ← zero_add (duration first)]
        exact moved 0 secondFormed.zero_mem_times
      · rcases List.mem_map.1 early with ⟨point, pointMember, rfl⟩
        apply List.mem_map_of_mem
        exact List.mem_append_left _ (mem_of_mem_of_time_lt firstFormed pointMember before)
    · exact moved other member

/-- If the cuts are breakpoints, the part has the breakpoints between them. -/
theorem mem_times_cut_out_iff (formed : WellFormed points) {start stop first last : Decimal}
    (ordered : start ≤ stop) (startMember : start ∈ times points)
    (stopMember : stop ∈ times points) (time : Decimal) :
    time ∈ times (cutOut points start stop first last) ↔
      0 ≤ time ∧ time ≤ stop - start ∧ time + start ∈ times points := by
  have partFormed := cut_out_well_formed formed start stop first last
  constructor
  · intro member
    rcases List.mem_map.1 member with ⟨point, pointMember, rfl⟩
    refine ⟨partFormed.time_nonneg pointMember, ?_, ?_⟩
    · rw [← duration_cut_out formed ordered first last]
      exact partFormed.time_le_duration pointMember
    · rcases (mem_cut_out formed _ _ _ _ _).1 pointMember with
        rfl | ⟨original, originalMember, _, _, rfl⟩ | ⟨_, rfl⟩
      · rwa [zero_add]
      · rw [Breakpoint.shift, neg_add_cancel_right]
        exact List.mem_map_of_mem originalMember
      · rwa [sub_add_cancel]
  · rintro ⟨nonneg, bounded, member⟩
    exact mem_times_cut_out formed nonneg bounded member

theorem mem_times_rejoined (formed : WellFormed points) {cut time start left right stop : Decimal}
    (nonneg : 0 ≤ cut) (member : time ∈ times points) :
    time ∈ times (joined (cutOut points 0 cut start left)
      (cutOut points cut (duration points) right stop)) := by
  rw [mem_times_joined (cut_out_well_formed formed _ _ _ _) (cut_out_well_formed formed _ _ _ _),
    duration_cut_out formed nonneg, sub_zero]
  rcases le_total time cut with early | late
  · left
    exact mem_times_cut_out formed (time_nonneg_of_mem formed member) (by rwa [sub_zero])
      (by rwa [add_zero])
  · refine Or.inr ⟨time - cut, ?_, sub_add_cancel _ _⟩
    exact mem_times_cut_out formed (sub_nonneg.2 late)
      (sub_le_sub_right (last_time_le formed member) _) (by rwa [sub_add_cancel])

section Whole

variable (firstFormed : WellFormed first) (secondFormed : WellFormed second)

include secondFormed in
theorem duration_le_joined : duration first ≤ duration (joined first second) := by
  rw [duration_joined secondFormed]
  exact le_add_of_nonneg_right secondFormed.duration_nonneg

include firstFormed secondFormed

theorem duration_mem_times_joined : duration first ∈ times (joined first second) :=
  (mem_times_joined firstFormed secondFormed _).2 (Or.inl firstFormed.duration_mem_times)

theorem mem_times_first_part {start stop : Decimal} (time : Decimal) :
    time ∈ times (cutOut (joined first second) 0 (duration first) start stop) ↔
      time ∈ times first := by
  have formed := joined_well_formed firstFormed secondFormed
  have cutMember := duration_mem_times_joined firstFormed secondFormed
  rw [mem_times_cut_out_iff formed firstFormed.duration_nonneg formed.zero_mem_times cutMember,
    mem_times_joined firstFormed secondFormed, add_zero, sub_zero]
  constructor
  · rintro ⟨_, bounded, early | ⟨other, late, rfl⟩⟩
    · exact early
    · have atStart : other = 0 := le_antisymm (add_le_iff_nonpos_left.1 bounded)
        (time_nonneg_of_mem secondFormed late)
      rw [atStart, zero_add]
      exact firstFormed.duration_mem_times
  · intro member
    exact ⟨time_nonneg_of_mem firstFormed member, last_time_le firstFormed member, Or.inl member⟩

theorem mem_times_second_part {start stop : Decimal} (time : Decimal) :
    time ∈ times (cutOut (joined first second) (duration first) (duration (joined first second))
        start stop) ↔
      time ∈ times second := by
  have formed := joined_well_formed firstFormed secondFormed
  have cutMember := duration_mem_times_joined firstFormed secondFormed
  rw [mem_times_cut_out_iff formed (duration_le_joined secondFormed) cutMember
    formed.duration_mem_times, mem_times_joined firstFormed secondFormed,
    duration_joined secondFormed, add_sub_cancel_left]
  constructor
  · rintro ⟨nonneg, _, early | ⟨other, late, same⟩⟩
    · have atStart : time = 0 :=
        le_antisymm (add_le_iff_nonpos_left.1 (last_time_le firstFormed early)) nonneg
      rw [atStart]
      exact secondFormed.zero_mem_times
    · rwa [← add_right_cancel same]
  · intro member
    exact ⟨time_nonneg_of_mem secondFormed member, last_time_le secondFormed member,
      Or.inr ⟨time, member, rfl⟩⟩

end Whole

end Breakpoints

namespace LinearSeries

variable {series first second whole part : LinearSeries}

/-- A part has the values of the series at its own breakpoints. -/
theorem eval_slice (formed : WellFormed series.points) {start stop time : Decimal}
    (sliced : series.slice start stop = .ok part) (member : time ∈ times part.points) :
    part.eval time = series.eval (time + start) := by
  have partFormed := (slice_spans formed sliced).formed
  rcases (slice_ok_iff start stop).1 sliced with ⟨_, rfl⟩
  rcases List.mem_map.1 member with ⟨point, pointMember, rfl⟩
  rw [eval_of_mem partFormed pointMember]
  rcases (mem_cut_out formed _ _ _ _ _).1 pointMember with
    rfl | ⟨original, originalMember, _, _, rfl⟩ | ⟨_, rfl⟩
  · rw [zero_add]
  · rw [Breakpoint.shift, neg_add_cancel_right, eval_of_mem formed originalMember]
  · rw [sub_add_cancel]

theorem eval_followed_by (firstFormed : WellFormed first.points)
    (secondFormed : WellFormed second.points) (meets : Meet first second) :
    (∀ time ∈ times first.points, (first.followedBy second).eval time = first.eval time) ∧
      ∀ time ∈ times second.points,
        (first.followedBy second).eval (time + first.duration) = second.eval time := by
  have formed : WellFormed (first.followedBy second).points :=
    joined_well_formed firstFormed secondFormed
  constructor
  · intro time member
    rcases List.mem_map.1 member with ⟨point, pointMember, rfl⟩
    have inWhole : point ∈ (first.followedBy second).points := by
      rw [followed_by_points firstFormed secondFormed meets]
      exact List.mem_append_left _ pointMember
    rw [eval_of_mem formed inWhole, eval_of_mem firstFormed pointMember]
  · intro time member
    rcases List.mem_map.1 member with ⟨point, pointMember, rfl⟩
    have inWhole : point.shift first.duration ∈ (first.followedBy second).points :=
      List.mem_append_right _ (List.mem_map_of_mem pointMember)
    have moved : point.time + first.duration = (point.shift first.duration).time := rfl
    rw [moved, eval_of_mem formed inWhole, eval_of_mem secondFormed pointMember]
    rfl

theorem cut_rejoins (formed : WellFormed series.points) {cut : Decimal} (nonneg : 0 ≤ cut)
    (reached : cut ≤ series.duration) :
    ∃ before after whole, series.slice 0 cut = .ok before ∧
      series.slice cut series.duration = .ok after ∧ before.append after = .ok whole ∧
      whole.same series = true := by
  obtain ⟨before, beforeOk⟩ : ∃ before, series.slice 0 cut = .ok before :=
    ⟨_, (slice_ok_iff _ _).2 ⟨⟨le_rfl, nonneg, reached⟩, rfl⟩⟩
  obtain ⟨after, afterOk⟩ : ∃ after, series.slice cut series.duration = .ok after :=
    ⟨_, (slice_ok_iff _ _).2 ⟨⟨nonneg, reached, le_rfl⟩, rfl⟩⟩
  have beforeSpans := slice_spans formed beforeOk
  have afterSpans := slice_spans formed afterOk
  rw [sub_zero] at beforeSpans
  have meets : Meet before after := by
    unfold Meet
    rw [beforeSpans.lasts, beforeSpans.eval_stop, afterSpans.eval_start]
  have rejoins : before.append after = .ok (before.followedBy after) :=
    (append_iff_meet beforeSpans.formed afterSpans.formed).2 ⟨meets, rfl⟩
  have agree := eval_followed_by beforeSpans.formed afterSpans.formed meets
  refine ⟨before, after, before.followedBy after, beforeOk, afterOk, rejoins, same_of_finer ?_ ?_ ?_⟩
  · have total : (before.followedBy after).duration = before.duration + after.duration :=
      duration_joined afterSpans.formed
    rw [total, beforeSpans.lasts, afterSpans.lasts, add_sub_cancel]
  · intro time member
    rw [followedBy, ((slice_ok_iff _ _).1 beforeOk).2, ((slice_ok_iff _ _).1 afterOk).2]
    exact mem_times_rejoined formed nonneg member
  · intro time member
    rcases (mem_times_joined beforeSpans.formed afterSpans.formed time).1 member with
      early | ⟨other, late, rfl⟩
    · rw [agree.1 time early, eval_slice formed beforeOk early, add_zero]
    · have lasts : Breakpoints.duration before.points = cut := beforeSpans.lasts
      have moved := agree.2 other late
      rw [beforeSpans.lasts] at moved
      rw [lasts, moved, eval_slice formed afterOk late]

theorem join_falls_apart (firstFormed : WellFormed first.points)
    (secondFormed : WellFormed second.points) (joins : first.append second = .ok whole) :
    ∃ before after, whole.slice 0 first.duration = .ok before ∧ before.same first = true ∧
      whole.slice first.duration whole.duration = .ok after ∧ after.same second = true := by
  obtain ⟨meets, rfl⟩ := (append_iff_meet firstFormed secondFormed).1 joins
  have formed := joined_well_formed firstFormed secondFormed
  have total : (first.followedBy second).duration = first.duration + second.duration :=
    duration_joined secondFormed
  have shorter : first.duration ≤ (first.followedBy second).duration :=
    duration_le_joined secondFormed
  have agree := eval_followed_by firstFormed secondFormed meets
  obtain ⟨before, beforeOk⟩ :
      ∃ before, (first.followedBy second).slice 0 first.duration = .ok before :=
    ⟨_, (slice_ok_iff _ _).2 ⟨⟨le_rfl, firstFormed.duration_nonneg, shorter⟩, rfl⟩⟩
  obtain ⟨after, afterOk⟩ : ∃ after, (first.followedBy second).slice first.duration
      (first.followedBy second).duration = .ok after :=
    ⟨_, (slice_ok_iff _ _).2 ⟨⟨firstFormed.duration_nonneg, shorter, le_rfl⟩, rfl⟩⟩
  have memBefore : ∀ time, time ∈ times before.points ↔ time ∈ times first.points := by
    rw [((slice_ok_iff _ _).1 beforeOk).2]
    exact mem_times_first_part firstFormed secondFormed
  have memAfter : ∀ time, time ∈ times after.points ↔ time ∈ times second.points := by
    rw [((slice_ok_iff _ _).1 afterOk).2]
    exact mem_times_second_part firstFormed secondFormed
  have beforeLasts := (slice_spans formed beforeOk).lasts
  have afterLasts := (slice_spans formed afterOk).lasts
  refine ⟨before, after, beforeOk, same_of_finer ?_ ?_ ?_, afterOk, same_of_finer ?_ ?_ ?_⟩
  · rw [beforeLasts, sub_zero]
  · exact fun time => (memBefore time).2
  · intro time member
    rw [eval_slice formed beforeOk member, add_zero]
    exact agree.1 time ((memBefore time).1 member)
  · rw [afterLasts, total, add_sub_cancel_left]
  · exact fun time => (memAfter time).2
  · intro time member
    rw [eval_slice formed afterOk member]
    exact agree.2 time ((memAfter time).1 member)

end LinearSeries

namespace ConstantSeries

variable {series first second left right whole part : ConstantSeries}

/-- A series that ends flat ends with the value of its last step. -/
theorem eval_end_eq_step (formed : WellFormed series.points) (flat : FlatEnd series.points)
    (positive : 0 < series.duration) :
    ∃ near, 0 ≤ near ∧ near < series.duration ∧ ∀ time, near ≤ time → time < series.duration →
      series.eval series.duration = series.step time := by
  rcases last_pair_cases series.points with none | ⟨point, single⟩ | ⟨before, next, last, same⟩
  · exact absurd none formed.ne_nil
  · have starts := formed.starts
    rw [duration, Breakpoints.duration, single] at positive
    rw [single] at starts
    exact absurd (Option.some.inj starts) positive.ne'
  · have nextMember : next ∈ series.points := by simp [same]
    have lastMember : last ∈ series.points := by simp [same]
    have lastTime : last.time = series.duration := by
      simp [duration, Breakpoints.duration, same]
    have increasing := formed.increasing
    rw [same, List.pairwise_append] at increasing
    have ordered : next.time < last.time := (List.pairwise_cons.1 increasing.2.1).1 last (by simp)
    rw [← lastTime]
    refine ⟨next.time, formed.time_nonneg nextMember, ordered, fun time started early => ?_⟩
    have holds : Holds series.points time next := by
      refine ⟨nextMember, started, fun other member notLater => ?_⟩
      rw [same, List.mem_append] at member
      rcases member with earlier | late
      · exact (increasing.2.2 other earlier next (by simp)).le
      · rcases List.mem_pair.1 late with rfl | rfl
        · exact le_rfl
        · exact absurd notLater (not_le.2 early)
    rw [eval_of_mem formed lastMember, flat before next last same]
    exact (step_of_holds formed (lastTime ▸ early) holds).symm

theorem same_of_steps (leftFormed : WellFormed left.points) (rightFormed : WellFormed right.points)
    (leftFlat : FlatEnd left.points) (rightFlat : FlatEnd right.points)
    (positive : 0 < left.duration) (sameDuration : left.duration = right.duration)
    (steps : ∀ time, 0 ≤ time → time < left.duration → left.step time = right.step time) :
    left.same right = true := by
  rcases eval_end_eq_step leftFormed leftFlat positive with ⟨leftNear, leftNonneg, leftEarly, leftEnd⟩
  rcases eval_end_eq_step rightFormed rightFlat (sameDuration ▸ positive) with
    ⟨rightNear, _, rightEarly, rightEnd⟩
  rw [same_iff_eval_eq leftFormed rightFormed]
  refine ⟨sameDuration, fun time => ?_⟩
  by_cases within : 0 ≤ time ∧ time ≤ left.duration
  · rcases within with ⟨nonneg, reached⟩
    rcases reached.eq_or_lt with rfl | before
    · -- Both ends have the value of a step that neither series has left.
      have early : max leftNear rightNear < left.duration :=
        max_lt leftEarly (sameDuration ▸ rightEarly)
      rw [leftEnd _ (le_max_left _ _) early, steps _ (leftNonneg.trans (le_max_left _ _)) early,
        sameDuration]
      exact (rightEnd _ (le_max_right _ _) (sameDuration ▸ early)).symm
    · rw [eval_eq_step nonneg before, eval_eq_step nonneg (sameDuration ▸ before)]
      exact steps time nonneg before
  · rw [not_and_or, not_le, not_le] at within
    rw [eval_of_outside within, eval_of_outside (sameDuration ▸ within)]

theorem cut_rejoins (formed : WellFormed series.points) (flat : FlatEnd series.points)
    {cut : Decimal} (nonneg : 0 ≤ cut) (reached : cut ≤ series.duration) :
    ∃ before after, series.slice 0 cut = .ok before ∧
      series.slice cut series.duration = .ok after ∧
      (before.append after).same series = true := by
  obtain ⟨before, beforeOk⟩ : ∃ before, series.slice 0 cut = .ok before :=
    ⟨_, (slice_ok_iff _ _ _).2 ⟨⟨le_rfl, nonneg, reached⟩, rfl⟩⟩
  obtain ⟨after, afterOk⟩ : ∃ after, series.slice cut series.duration = .ok after :=
    ⟨_, (slice_ok_iff _ _ _).2 ⟨⟨nonneg, reached, le_rfl⟩, rfl⟩⟩
  have beforeFormed := slice_well_formed formed beforeOk
  have afterFormed := slice_well_formed formed afterOk
  have beforeLasts := duration_slice formed beforeOk
  have afterLasts := duration_slice formed afterOk
  rw [sub_zero] at beforeLasts
  have total : (before.append after).duration = series.duration := by
    rw [duration_append beforeFormed afterFormed, beforeLasts, afterLasts, add_sub_cancel]
  have wholeFormed := append_well_formed beforeFormed afterFormed
  refine ⟨before, after, beforeOk, afterOk, ?_⟩
  rcases formed.duration_nonneg.eq_or_lt with empty | positive
  · -- Without duration there is a single point, which is cut out twice.
    have noTime : series.duration = 0 := empty.symm
    rcases formed.single_of_empty noTime with ⟨value, single⟩
    have member : (⟨0, value⟩ : Breakpoint) ∈ series.points := by simp [single]
    have starts : series.eval 0 = value := eval_of_mem formed member
    have atStart : cut = 0 := le_antisymm (reached.trans_eq noTime) nonneg
    rw [noTime, atStart, slice_ok_iff, cut_out_empty formed.times_increasing, starts] at afterOk
    have comesBack : before.append after = series := by
      rw [append_points beforeFormed afterFormed,
        joined_of_empty beforeFormed (beforeLasts.trans atStart), afterOk.2]
      exact congrArg ConstantSeries.mk single.symm
    rw [comesBack]
    exact same_iff.2 ⟨rfl, fun _ _ => rfl⟩
  · apply same_of_steps wholeFormed formed (append_flat (slice_flat beforeOk)) flat
      (total ▸ positive) total
    intro time timeNonneg early
    rw [step_append beforeFormed afterFormed timeNonneg
      (by rwa [← duration_append beforeFormed afterFormed]), beforeLasts]
    split_ifs with beforeCut
    · rw [step_slice formed beforeOk timeNonneg (by rwa [sub_zero]), add_zero]
    · rw [step_slice formed afterOk (sub_nonneg.2 (not_lt.1 beforeCut))
        (sub_lt_sub_right (total ▸ early) _), sub_add_cancel]

theorem join_falls_apart (firstFormed : WellFormed first.points)
    (secondFormed : WellFormed second.points) (firstFlat : FlatEnd first.points)
    (secondFlat : FlatEnd second.points) (firstPositive : 0 < first.duration)
    (secondPositive : 0 < second.duration) :
    ∃ before after, (first.append second).slice 0 first.duration = .ok before ∧
      before.same first = true ∧
      (first.append second).slice first.duration (first.append second).duration = .ok after ∧
      after.same second = true := by
  have formed := append_well_formed firstFormed secondFormed
  have total := duration_append firstFormed secondFormed
  have shorter : first.duration ≤ (first.append second).duration := by
    rw [total]
    exact le_add_of_nonneg_right secondPositive.le
  obtain ⟨before, beforeOk⟩ : ∃ before, (first.append second).slice 0 first.duration = .ok before :=
    ⟨_, (slice_ok_iff _ _ _).2 ⟨⟨le_rfl, firstPositive.le, shorter⟩, rfl⟩⟩
  obtain ⟨after, afterOk⟩ : ∃ after, (first.append second).slice first.duration
      (first.append second).duration = .ok after :=
    ⟨_, (slice_ok_iff _ _ _).2 ⟨⟨firstPositive.le, shorter, le_rfl⟩, rfl⟩⟩
  have beforeLasts := duration_slice formed beforeOk
  have afterLasts := duration_slice formed afterOk
  rw [sub_zero] at beforeLasts
  rw [total, add_sub_cancel_left] at afterLasts
  refine ⟨before, after, beforeOk, ?_, afterOk, ?_⟩
  · apply same_of_steps (slice_well_formed formed beforeOk) firstFormed (slice_flat beforeOk)
      firstFlat (beforeLasts ▸ firstPositive) beforeLasts
    intro time nonneg early
    rw [beforeLasts] at early
    rw [step_slice formed beforeOk nonneg (by rwa [sub_zero]), add_zero,
      step_append firstFormed secondFormed nonneg (by linarith), if_pos early]
  · apply same_of_steps (slice_well_formed formed afterOk) secondFormed (slice_flat afterOk)
      secondFlat (afterLasts ▸ secondPositive) afterLasts
    intro time nonneg early
    rw [afterLasts] at early
    rw [step_slice formed afterOk nonneg (by rwa [total, add_sub_cancel_left]),
      step_append firstFormed secondFormed (by linarith) (by linarith), if_neg (by linarith),
      add_sub_cancel_right]

end ConstantSeries

namespace Series

/-- A series of the given form that is made of two lists of times and values. -/
def Made (target : Target) (series : Series) : Prop :=
  ∃ timeList valueList, ofLists target timeList valueList = .ok series

theorem slice_linear {line part : LinearSeries} {start stop : Decimal}
    (sliced : line.slice start stop = .ok part) :
    (linear line).slice start stop = .ok (linear part) :=
  (Outcome.map_ok_iff _ _ _).2 ⟨part, sliced, rfl⟩

theorem slice_constant {steps part : ConstantSeries} {start stop : Decimal}
    (sliced : steps.slice start stop = .ok part) :
    (constant steps).slice start stop = .ok (constant part) :=
  (Outcome.map_ok_iff _ _ _).2 ⟨part, sliced, rfl⟩

/-- The parts of a series that is cut can be put together, and are the same series again. Two
series that were put together are the parts of the whole that is cut where they meet; of constant
series both must last for some time. -/
theorem cut_join_inverse (target : Target) (series : Series) (made : series.Made target) :
    (∀ cut, 0 ≤ cut → cut ≤ series.duration →
      ∃ before after whole, series.slice 0 cut = .ok before ∧
        series.slice cut series.duration = .ok after ∧ before.append after = .ok whole ∧
        whole.same series = true) ∧
    ∀ next whole, next.Made target →
      (target = .constant → 0 < series.duration ∧ 0 < next.duration) →
      series.append next = .ok whole →
      ∃ before after, whole.slice 0 series.duration = .ok before ∧ before.same series = true ∧
        whole.slice series.duration whole.duration = .ok after ∧ after.same next = true := by
  rcases made with ⟨_, _, made⟩
  rcases of_lists_formed made with ⟨formed, flat⟩
  cases target with
  | linear =>
      rcases formed.linear with ⟨first, rfl, firstFormed⟩
      constructor
      · intro cut nonneg reached
        rcases LinearSeries.cut_rejoins firstFormed nonneg reached with
          ⟨before, after, whole, beforeOk, afterOk, wholeOk, same⟩
        exact ⟨linear before, linear after, linear whole, slice_linear beforeOk,
          slice_linear afterOk, (Outcome.map_ok_iff _ _ _).2 ⟨whole, wholeOk, rfl⟩, same⟩
      · rintro next whole ⟨_, _, nextMade⟩ _ joins
        rcases (of_lists_formed nextMade).1.linear with ⟨second, rfl, secondFormed⟩
        rcases (Outcome.map_ok_iff _ _ _).1 joins with ⟨joined, joinsLines, rfl⟩
        rcases LinearSeries.join_falls_apart firstFormed secondFormed joinsLines with
          ⟨before, after, beforeOk, beforeSame, afterOk, afterSame⟩
        exact ⟨linear before, linear after, slice_linear beforeOk, beforeSame,
          slice_linear afterOk, afterSame⟩
  | constant =>
      rcases formed.constant with ⟨first, rfl, firstFormed⟩
      constructor
      · intro cut nonneg reached
        rcases ConstantSeries.cut_rejoins firstFormed (flat rfl) nonneg reached with
          ⟨before, after, beforeOk, afterOk, same⟩
        exact ⟨constant before, constant after, _, slice_constant beforeOk, slice_constant afterOk,
          rfl, same⟩
      · rintro next whole ⟨_, _, nextMade⟩ last joins
        rcases of_lists_formed nextMade with ⟨nextFormed, nextFlat⟩
        rcases nextFormed.constant with ⟨second, rfl, secondFormed⟩
        rcases last rfl with ⟨firstPositive, secondPositive⟩
        cases joins
        rcases ConstantSeries.join_falls_apart firstFormed secondFormed (flat rfl) (nextFlat rfl)
          firstPositive secondPositive with
          ⟨before, after, beforeOk, beforeSame, afterOk, afterSame⟩
        exact ⟨constant before, constant after, slice_constant beforeOk, beforeSame,
          slice_constant afterOk, afterSame⟩

def thirds : Series := .linear ⟨[⟨0, 0⟩, ⟨3, 1⟩]⟩

def twoSteps : Series := .constant ⟨[⟨0, 2⟩, ⟨1, 4⟩, ⟨3, 4⟩]⟩

theorem cut_join_inverse_thirds :
    (∃ before after whole, thirds.slice 0 1 = .ok before ∧ thirds.slice 1 3 = .ok after ∧
      before.append after = .ok whole ∧ whole.same thirds = true) ∧
    ∃ whole before after, twoSteps.append twoSteps = .ok whole ∧
      whole.slice 0 3 = .ok before ∧ before.same twoSteps = true ∧
      whole.slice 3 6 = .ok after ∧ after.same twoSteps = true := by
  have thirdsMade : thirds.Made .linear := ⟨[0, 3], [0, 1], rfl⟩
  have twoStepsMade : twoSteps.Made .constant := ⟨[0, 1, 3], [2, 4, 0], rfl⟩
  constructor
  · exact (cut_join_inverse .linear thirds thirdsMade).1 1 (by decide) (by decide)
  · rcases (cut_join_inverse .constant twoSteps twoStepsMade).2 twoSteps _ twoStepsMade
      (fun _ => by decide) rfl with ⟨before, after, parts⟩
    exact ⟨_, before, after, rfl, parts⟩

end Series

end Analog
