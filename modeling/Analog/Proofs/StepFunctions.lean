import Analog.Proofs.Breakpoints
import Analog.Series.Lowering

/-!
# Constant series as step functions

From its start to before its end a constant series is the step function that takes, at each
time, the value of the last breakpoint passed. Every operation on series is the expected
operation on step functions, at every time and not only between breakpoints.
-/

set_option autoImplicit false

namespace Analog.ConstantSeries

open Breakpoints

variable {series left right first second : ConstantSeries}

theorem step_eq (formed : WellFormed series.points) {time value : Decimal} (nonneg : 0 ≤ time)
    (before : time < series.duration)
    (each : ∀ point, Holds series.points time point → point.value = value) :
    series.step time = value := by
  obtain ⟨point, found, holds⟩ := holds_segment series.points formed time nonneg
  unfold step
  rw [if_neg (by simp [not_lt.2 nonneg, before])]
  unfold stepValue
  rw [found]
  exact each point holds

theorem step_of_holds (formed : WellFormed series.points) {time : Decimal} {point : Breakpoint}
    (before : time < series.duration) (holds : Holds series.points time point) :
    series.step time = point.value := by
  have nonneg := (formed.time_nonneg holds.member).trans holds.notLater
  apply step_eq formed nonneg before
  intro other otherHolds
  rw [otherHolds.unique formed holds]

theorem step_after_end {time : Decimal} (late : series.duration ≤ time) :
    series.step time = 0 := by
  unfold step
  rw [if_pos (by simp [late])]

theorem eval_eq_step {time : Decimal} (nonneg : 0 ≤ time) (before : time < series.duration) :
    series.eval time = series.step time := by
  unfold eval step
  rw [if_neg (by simp [not_lt.2 nonneg, before.le]), if_neg (by simp [not_lt.2 nonneg, before])]

theorem step_eq_of_no_point (formed : WellFormed series.points) {earlier later : Decimal}
    (nonneg : 0 ≤ earlier) (ordered : earlier ≤ later)
    (none : ∀ time ∈ times series.points, time ≤ later → time ≤ earlier) :
    series.step earlier = series.step later := by
  by_cases ended : series.duration ≤ later
  · have endedEarlier : series.duration ≤ earlier :=
      none _ formed.duration_mem_times ended
    rw [step_after_end ended, step_after_end endedEarlier]
  · have before := not_le.1 ended
    obtain ⟨point, found, holds⟩ := holds_segment series.points formed earlier nonneg
    have holdsLater : Holds series.points later point := by
      apply holds.later ordered
      intro other member notLater
      exact none other.time (List.mem_map.2 ⟨other, member, rfl⟩) notLater
    rw [step_of_holds formed (ordered.trans_lt before) holds, step_of_holds formed before holdsLater]

theorem level_well_formed (duration value : Decimal) (nonneg : 0 ≤ duration) :
    WellFormed (level duration value).points := by
  unfold level
  split_ifs with zero
  · exact ⟨rfl, List.pairwise_singleton _ _⟩
  · have positive : 0 < duration := 
      lt_of_le_of_ne nonneg fun same => zero ((Decimal.is_zero_iff _).2 same.symm)
    exact ⟨rfl, by simpa using positive⟩

theorem duration_level (duration value : Decimal) :
    (level duration value).duration = duration := by
  unfold level
  split_ifs with zero
  · rw [Decimal.is_zero_iff] at zero
    simp [ConstantSeries.duration, Breakpoints.duration, zero]
  · simp [ConstantSeries.duration, Breakpoints.duration]

theorem value_of_mem_level (duration value : Decimal) {point : Breakpoint}
    (member : point ∈ (level duration value).points) : point.value = value := by
  unfold level at member
  split_ifs at member
  · rw [List.mem_singleton.1 member]
  · rcases List.mem_pair.1 member with rfl | rfl <;> rfl

theorem step_level (duration value : Decimal) {time : Decimal}
    (nonneg : 0 ≤ time) (before : time < duration) :
    (level duration value).step time = value := by
  apply step_eq (level_well_formed duration value (nonneg.trans before.le)) nonneg
  · rw [duration_level]
    exact before
  · intro point holds
    exact value_of_mem_level duration value holds.member

theorem times_map (f : Decimal → Decimal) :
    times (series.map f).points = times series.points := by
  simp [map, mapValues, times, Function.comp_def]

theorem duration_map (f : Decimal → Decimal) : (series.map f).duration = series.duration := by
  unfold duration
  rw [duration_eq_last_time, duration_eq_last_time, times_map]

theorem map_well_formed (f : Decimal → Decimal) (formed : WellFormed series.points) :
    WellFormed (series.map f).points :=
  well_formed_of_times (times_map f).symm formed

theorem step_map (f : Decimal → Decimal) (formed : WellFormed series.points) {time : Decimal}
    (nonneg : 0 ≤ time) (before : time < series.duration) :
    (series.map f).step time = f (series.step time) := by
  obtain ⟨point, found, holds⟩ := holds_segment series.points formed time nonneg
  rw [step_of_holds formed before holds]
  have image : Holds (series.map f).points time { point with value := f point.value } := by
    refine ⟨List.mem_map.2 ⟨point, holds.member, rfl⟩, holds.notLater, ?_⟩
    intro other member notLater
    obtain ⟨original, originalMember, rfl⟩ := List.mem_map.1 member
    exact holds.latest original originalMember notLater
  exact step_of_holds (map_well_formed f formed) (by rw [duration_map]; exact before) image

theorem plus_points :
    left.plus right =
      ⟨flatTail (merged left.points right.points fun time => left.step time + right.step time)⟩ :=
  rfl

theorem times_plus :
    times (left.plus right).points = union (times left.points) (times right.points) := by
  rw [plus_points, times_flat_tail, times_merged]

theorem plus_well_formed (leftFormed : WellFormed left.points)
    (rightFormed : WellFormed right.points) : WellFormed (left.plus right).points :=
  well_formed_of_times (times_flat_tail _).symm (merged_well_formed leftFormed rightFormed _)

theorem duration_plus (leftFormed : WellFormed left.points)
    (rightFormed : WellFormed right.points) :
    (left.plus right).duration = max left.duration right.duration := by
  rw [plus_points, duration, duration_eq_last_time, times_flat_tail, ← duration_eq_last_time]
  exact duration_merged leftFormed rightFormed _

theorem step_plus (leftFormed : WellFormed left.points) (rightFormed : WellFormed right.points)
    {time : Decimal} (nonneg : 0 ≤ time) (before : time < max left.duration right.duration) :
    (left.plus right).step time = left.step time + right.step time := by
  have formed := plus_well_formed leftFormed rightFormed
  have beforeEnd : time < (left.plus right).duration := by
    rw [duration_plus leftFormed rightFormed]
    exact before
  apply step_eq formed nonneg beforeEnd
  intro point flatHolds
  -- The tail is not reached, so the point is one of those that were added up.
  have holds := holds_flat_tail (merged left.points right.points fun time =>
    left.step time + right.step time)
    (by rw [duration_merged leftFormed rightFormed]; exact before) flatHolds
  obtain ⟨moment, momentMember, rfl⟩ := List.mem_map.1 holds.member
  have momentNonneg := formed.time_nonneg flatHolds.member
  have lastOfUnion : ∀ other ∈ union (times left.points) (times right.points),
      other ≤ time → other ≤ moment := by
    intro other otherMember notLater
    exact holds.latest ⟨other, left.step other + right.step other⟩
      (List.mem_map.2 ⟨other, otherMember, rfl⟩) notLater
  have leftSame := step_eq_of_no_point leftFormed momentNonneg holds.notLater
    (fun other member => lastOfUnion other ((mem_union _ _ _).2 (Or.inl member)))
  have rightSame := step_eq_of_no_point rightFormed momentNonneg holds.notLater
    (fun other member => lastOfUnion other ((mem_union _ _ _).2 (Or.inr member)))
  rw [← leftSame, ← rightSame]

theorem slice_ok_iff (start stop : Decimal) (part : ConstantSeries) :
    series.slice start stop = .ok part ↔
      (0 ≤ start ∧ start ≤ stop ∧ stop ≤ series.duration) ∧
        part = ⟨flatTail (cutOut series.points start stop (series.eval start) 0)⟩ := by
  unfold slice cutOut
  split_ifs with valid <;> simp [validCut] at valid <;> grind

theorem duration_slice (formed : WellFormed series.points) {start stop : Decimal}
    {part : ConstantSeries} (sliced : series.slice start stop = .ok part) :
    part.duration = stop - start := by
  obtain ⟨⟨_, ordered, _⟩, rfl⟩ := (slice_ok_iff start stop part).1 sliced
  unfold duration
  rw [duration_eq_last_time, times_flat_tail, ← duration_eq_last_time]
  exact duration_cut_out formed ordered _ _

theorem slice_well_formed (formed : WellFormed series.points) {start stop : Decimal}
    {part : ConstantSeries} (sliced : series.slice start stop = .ok part) :
    WellFormed part.points := by
  obtain ⟨_, rfl⟩ := (slice_ok_iff start stop part).1 sliced
  exact well_formed_of_times (times_flat_tail _).symm (cut_out_well_formed formed _ _ _ _)

theorem mem_times_slice (formed : WellFormed series.points) {start stop time : Decimal}
    {part : ConstantSeries} (sliced : series.slice start stop = .ok part)
    (nonneg : 0 ≤ time) (before : time < stop - start)
    (member : time + start ∈ times series.points) : time ∈ times part.points := by
  obtain ⟨_, rfl⟩ := (slice_ok_iff start stop part).1 sliced
  rw [times_flat_tail]
  exact mem_times_cut_out formed nonneg before.le member

theorem step_slice (formed : WellFormed series.points) {start stop time : Decimal}
    {part : ConstantSeries} (sliced : series.slice start stop = .ok part)
    (nonneg : 0 ≤ time) (before : time < stop - start) :
    part.step time = series.step (time + start) := by
  have partFormed := slice_well_formed formed sliced
  have partDuration := duration_slice formed sliced
  obtain ⟨⟨startNonneg, ordered, bounded⟩, rfl⟩ := (slice_ok_iff start stop part).1 sliced
  have beforeEnd : time + start < series.duration := by linarith
  obtain ⟨current, _, currentHolds⟩ :=
    holds_segment series.points formed (time + start) (by linarith)
  rw [step_of_holds formed beforeEnd currentHolds]
  apply step_eq partFormed nonneg (by rw [partDuration]; exact before)
  intro point flatHolds
  have holds := holds_flat_tail (cutOut series.points start stop (series.eval start) 0)
    (by rw [duration_cut_out formed ordered]; exact before) flatHolds
  have insideMember : start < current.time →
      current.shift (-start) ∈ cutOut series.points start stop (series.eval start) 0 := by
    intro afterStart
    refine (mem_cut_out formed start stop _ _ _).2 (Or.inr (Or.inl
      ⟨current, currentHolds.member, afterStart, ?_, rfl⟩))
    have notLater := currentHolds.notLater
    linarith
  rcases (mem_cut_out formed start stop _ _ point).1 holds.member with
    rfl | ⟨original, originalMember, afterStart, beforeStop, rfl⟩ | ⟨_, rfl⟩
  · -- Still in the step that was cut at the start.
    have notAfterStart : current.time ≤ start := by
      by_contra later
      have bound := holds.latest _ (insideMember (not_le.1 later)) (by
        have notLater := currentHolds.notLater
        change current.time + -start ≤ time
        linarith)
      change current.time + -start ≤ 0 at bound
      linarith
    have startHolds : Holds series.points start current := by
      refine ⟨currentHolds.member, notAfterStart, fun other member notLater => ?_⟩
      exact currentHolds.latest other member (by linarith)
    change series.eval start = current.value
    rw [eval_eq_step startNonneg (by linarith), step_of_holds formed (by linarith) startHolds]
  · have originalNotLater : original.time ≤ current.time := by
      apply currentHolds.latest original originalMember
      have notLater := holds.notLater
      change original.time + -start ≤ time at notLater
      linarith
    have currentNotLater : current.time ≤ original.time := by
      have bound := holds.latest _ (insideMember (afterStart.trans_le originalNotLater)) (by
        have notLater := currentHolds.notLater
        change current.time + -start ≤ time
        linarith)
      change current.time + -start ≤ original.time + -start at bound
      linarith
    have same := formed.eq_of_time_eq originalMember currentHolds.member
      (le_antisymm originalNotLater currentNotLater)
    rw [same]
    rfl
  · exact absurd holds.notLater (not_le.2 before)

theorem append_points (firstFormed : WellFormed first.points)
    (secondFormed : WellFormed second.points) :
    first.append second = ⟨flatTail (joined first.points second.points)⟩ := by
  obtain ⟨before, last, firstSame, lastTime⟩ := firstFormed.split_last
  obtain ⟨value, rest, secondSame⟩ := secondFormed.split_first
  unfold append joined
  rw [← lastTime, secondSame, firstSame]
  simp [Breakpoint.shift]

theorem times_append (firstFormed : WellFormed first.points)
    (secondFormed : WellFormed second.points) :
    times (first.append second).points =
      times first.points.dropLast ++ (times second.points).map (· + first.duration) := by
  rw [append_points firstFormed secondFormed, times_flat_tail]
  simp [joined, times, Breakpoint.shift, Function.comp_def, duration]

theorem append_well_formed (firstFormed : WellFormed first.points)
    (secondFormed : WellFormed second.points) : WellFormed (first.append second).points := by
  rw [append_points firstFormed secondFormed]
  exact well_formed_of_times (times_flat_tail _).symm
    (joined_well_formed firstFormed secondFormed)

theorem duration_append (firstFormed : WellFormed first.points)
    (secondFormed : WellFormed second.points) :
    (first.append second).duration = first.duration + second.duration := by
  rw [append_points firstFormed secondFormed, duration, duration_eq_last_time, times_flat_tail,
    ← duration_eq_last_time, duration_joined secondFormed]
  rfl

theorem step_append (firstFormed : WellFormed first.points)
    (secondFormed : WellFormed second.points) {time : Decimal} (nonneg : 0 ≤ time)
    (before : time < first.duration + second.duration) :
    (first.append second).step time =
      if time < first.duration then first.step time else second.step (time - first.duration) := by
  apply step_eq (append_well_formed firstFormed secondFormed) nonneg
  · rw [duration_append firstFormed secondFormed]
    exact before
  intro point flatHolds
  rw [append_points firstFormed secondFormed] at flatHolds
  have holds := holds_flat_tail _ (by rw [duration_joined secondFormed]; exact before) flatHolds
  split_ifs with early
  · have firstHolds : Holds first.points time point := by
      refine ⟨?_, holds.notLater, fun other member notLater => ?_⟩
      · rcases List.mem_append.1 holds.member with inFirst | moved
        · exact (List.dropLast_sublist _).subset inFirst
        · obtain ⟨original, originalMember, rfl⟩ := List.mem_map.1 moved
          have late := secondFormed.time_nonneg originalMember
          have notLater := holds.notLater
          change original.time + first.duration ≤ time at notLater
          exact absurd early (by linarith)
      · exact holds.latest other (List.mem_append.2 (Or.inl
          (mem_of_mem_of_time_lt firstFormed member (notLater.trans_lt early)))) notLater
    exact (step_of_holds firstFormed early firstHolds).symm
  · have late := not_lt.1 early
    obtain ⟨current, _, currentHolds⟩ :=
      holds_segment second.points secondFormed (time - first.duration) (by linarith)
    rw [step_of_holds secondFormed (by linarith) currentHolds]
    have bound := holds.latest (current.shift first.duration)
      (List.mem_append.2 (Or.inr (List.mem_map.2 ⟨current, currentHolds.member, rfl⟩))) (by
        have notLater := currentHolds.notLater
        change current.time + first.duration ≤ time
        linarith)
    change current.time + first.duration ≤ point.time at bound
    rcases List.mem_append.1 holds.member with inFirst | moved
    · have small : point.time < first.duration := mem_drop_last_time_lt firstFormed inFirst
      have currentNonneg := secondFormed.time_nonneg currentHolds.member
      exact absurd small (by linarith)
    · obtain ⟨original, originalMember, rfl⟩ := List.mem_map.1 moved
      change current.time + first.duration ≤ original.time + first.duration at bound
      have notLater := holds.notLater
      change original.time + first.duration ≤ time at notLater
      have originalNotLater := currentHolds.latest original originalMember (by linarith)
      have same := secondFormed.eq_of_time_eq originalMember currentHolds.member
        (le_antisymm originalNotLater (by linarith))
      rw [same]
      rfl

end Analog.ConstantSeries
