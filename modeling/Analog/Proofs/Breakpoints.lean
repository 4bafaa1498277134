import Analog.Proofs.IncreasingTimes

/-!
# Well-formed breakpoints

Times of breakpoints start at zero and increase strictly. The last breakpoint that is not later
than a time is the one whose step holds there, and looking up the time finds it. Slices, sums and
sequences of well-formed breakpoints are well-formed, and hold exactly the expected times.
-/

set_option autoImplicit false

namespace Analog.Breakpoints

/-- Times start at zero and increase strictly. -/
structure WellFormed (points : List Breakpoint) : Prop where
  starts : points.head?.map (·.time) = some 0
  increasing : points.Pairwise fun first second => first.time < second.time

section WellFormed

variable {points : List Breakpoint}

theorem WellFormed.ne_nil (formed : WellFormed points) : points ≠ [] := by
  intro empty
  have starts := formed.starts
  rw [empty] at starts
  simp at starts

theorem WellFormed.split_first (formed : WellFormed points) :
    ∃ value rest, points = ⟨0, value⟩ :: rest := by
  cases points with
  | nil => exact absurd rfl formed.ne_nil
  | cons first rest =>
      have starts := formed.starts
      simp only [List.head?_cons, Option.map_some, Option.some.injEq] at starts
      exact ⟨first.value, rest, by rw [← starts]⟩

theorem WellFormed.split_last (formed : WellFormed points) :
    ∃ before last, points = before ++ [last] ∧ last.time = duration points := by
  refine ⟨points.dropLast, points.getLast formed.ne_nil,
    (List.dropLast_concat_getLast formed.ne_nil).symm, ?_⟩
  simp [duration, List.getLast?_eq_some_getLast formed.ne_nil]

theorem WellFormed.time_nonneg (formed : WellFormed points) {point : Breakpoint}
    (member : point ∈ points) : 0 ≤ point.time := by
  obtain ⟨value, rest, rfl⟩ := formed.split_first
  rcases List.mem_cons.1 member with rfl | later
  · exact le_rfl
  · exact ((List.pairwise_cons.1 formed.increasing).1 point later).le

theorem WellFormed.time_le_duration (formed : WellFormed points) {point : Breakpoint}
    (member : point ∈ points) : point.time ≤ duration points := by
  obtain ⟨before, last, rfl, lastTime⟩ := formed.split_last
  rw [← lastTime]
  rcases List.mem_append.1 member with earlier | final
  · exact ((List.pairwise_append.1 formed.increasing).2.2 point earlier last (by simp)).le
  · rw [List.mem_singleton.1 final]

theorem WellFormed.duration_nonneg (formed : WellFormed points) : 0 ≤ duration points := by
  obtain ⟨value, rest, same⟩ := formed.split_first
  have member : (⟨0, value⟩ : Breakpoint) ∈ points := by simp [same]
  have bound := formed.time_le_duration member
  exact bound

theorem WellFormed.single_of_empty (formed : WellFormed points) (empty : duration points = 0) :
    ∃ value, points = [⟨0, value⟩] := by
  rcases formed.split_first with ⟨value, rest, same⟩
  cases rest with
  | nil => exact ⟨value, same⟩
  | cons next others =>
      have increasing := formed.increasing
      rw [same] at increasing
      have later : 0 < next.time := (List.pairwise_cons.1 increasing).1 next (by simp)
      have nextMember : next ∈ points := by simp [same]
      exact absurd ((formed.time_le_duration nextMember).trans_eq empty) (not_le.2 later)

theorem WellFormed.zero_mem_times (formed : WellFormed points) : (0 : Decimal) ∈ times points := by
  obtain ⟨value, rest, rfl⟩ := formed.split_first
  simp [times]

theorem WellFormed.duration_mem_times (formed : WellFormed points) :
    duration points ∈ times points := by
  obtain ⟨before, last, same, lastTime⟩ := formed.split_last
  rw [← lastTime]
  exact List.mem_map.2 ⟨last, by simp [same], rfl⟩

theorem WellFormed.eq_of_time_eq (formed : WellFormed points) {first second : Breakpoint}
    (firstMember : first ∈ points) (secondMember : second ∈ points)
    (same : first.time = second.time) : first = second := by
  obtain ⟨firstIndex, firstBound, rfl⟩ := List.getElem_of_mem firstMember
  obtain ⟨secondIndex, secondBound, rfl⟩ := List.getElem_of_mem secondMember
  have increasing := List.pairwise_iff_getElem.1 formed.increasing
  rcases Nat.lt_trichotomy firstIndex secondIndex with before | rfl | after
  · exact absurd same (increasing _ _ firstBound secondBound before).ne
  · rfl
  · exact absurd same (increasing _ _ secondBound firstBound after).ne'

theorem WellFormed.times_increasing (formed : WellFormed points) :
    (times points).Pairwise (· < ·) :=
  List.pairwise_map.2 formed.increasing

end WellFormed

theorem mem_reached_iff (points : List Breakpoint) (time : Decimal) (index : Nat) :
    index ∈ reached (times points) time ↔ ∃ point ∈ points[index]?, point.time ≤ time := by
  simp [reached, times]

/-- The last point that is not later than a time. -/
structure Holds (points : List Breakpoint) (time : Decimal) (point : Breakpoint) : Prop where
  member : point ∈ points
  notLater : point.time ≤ time
  latest : ∀ other ∈ points, other.time ≤ time → other.time ≤ point.time

theorem Holds.unique {points : List Breakpoint} (formed : WellFormed points) {time : Decimal}
    {first second : Breakpoint} (firstHolds : Holds points time first)
    (secondHolds : Holds points time second) : first = second :=
  formed.eq_of_time_eq firstHolds.member secondHolds.member
    (le_antisymm (secondHolds.latest first firstHolds.member firstHolds.notLater)
      (firstHolds.latest second secondHolds.member secondHolds.notLater))

/-- A point keeps holding as long as no other point is reached. -/
theorem Holds.later {points : List Breakpoint} {time later : Decimal} {point : Breakpoint}
    (holds : Holds points time point) (ordered : time ≤ later)
    (none : ∀ other ∈ points, other.time ≤ later → other.time ≤ time) :
    Holds points later point :=
  ⟨holds.member, holds.notLater.trans ordered,
    fun other member notLater => holds.latest other member (none other member notLater)⟩

/-- The segment of a time is the index of the point that holds there. -/
theorem holds_segment (points : List Breakpoint) (formed : WellFormed points) (time : Decimal)
    (nonneg : 0 ≤ time) :
    ∃ point, points[segment (times points) time]? = some point ∧ Holds points time point := by
  obtain ⟨value, rest, same⟩ := formed.split_first
  have first : (⟨0, value⟩ : Breakpoint) ∈ points[0]? := by
    rw [same, List.getElem?_cons_zero, Option.mem_def]
  have some : (reached (times points) time).Nonempty :=
    ⟨0, (mem_reached_iff points time 0).2 ⟨_, first, nonneg⟩⟩
  obtain ⟨isReached, greatest⟩ := segment_greatest formed.times_increasing some
  obtain ⟨point, found, notLater⟩ := (mem_reached_iff points time _).1 isReached
  refine ⟨point, found, List.mem_of_getElem? found, notLater, ?_⟩
  intro other member otherNotLater
  obtain ⟨index, otherFound⟩ := List.mem_iff_getElem?.1 member
  have bound := greatest ((mem_reached_iff points time index).2 ⟨other, otherFound, otherNotLater⟩)
  rcases bound.eq_or_lt with isLast | before
  · rw [isLast, Option.mem_def.1 found, Option.some.injEq] at otherFound
    rw [otherFound]
  · obtain ⟨_, rfl⟩ := List.getElem?_eq_some_iff.1 otherFound
    obtain ⟨_, rfl⟩ := List.getElem?_eq_some_iff.1 found
    exact (List.pairwise_iff_getElem.1 formed.increasing _ _ _ _ before).le

theorem mem_inside (points : List Breakpoint) (formed : WellFormed points) (start stop : Decimal)
    (point : Breakpoint) :
    point ∈ inside points start stop ↔
      ∃ original ∈ points, start < original.time ∧ original.time < stop ∧
        point = original.shift (-start) := by
  rw [inside_eq_filter formed.times_increasing, List.mem_map]
  simp only [List.mem_filter, decide_eq_true_eq, and_assoc, @eq_comm _ point]

theorem inside_increasing (points : List Breakpoint) (formed : WellFormed points)
    (start stop : Decimal) :
    (inside points start stop).Pairwise fun first second => first.time < second.time := by
  unfold inside
  apply List.Pairwise.map _ _ (formed.increasing.sublist
    ((List.take_sublist _ _).trans (List.drop_sublist _ _)))
  intro first second ordered
  simpa [Breakpoint.shift] using ordered

theorem flat_tail_concat (before : List Breakpoint) (last : Breakpoint) :
    ∃ value, flatTail (before ++ [last]) = before ++ [⟨last.time, value⟩] := by
  induction before with
  | nil => exact ⟨last.value, rfl⟩
  | cons first rest ih =>
      cases rest with
      | nil => exact ⟨first.value, rfl⟩
      | cons second others =>
          obtain ⟨value, same⟩ := ih
          refine ⟨value, ?_⟩
          change _ = first :: (second :: others ++ [⟨last.time, value⟩])
          rw [← same]
          cases others <;> rfl

theorem times_flat_tail (points : List Breakpoint) : times (flatTail points) = times points := by
  rcases List.eq_nil_or_concat points with rfl | ⟨before, last, rfl⟩
  · rfl
  · obtain ⟨value, same⟩ := flat_tail_concat before last
    rw [List.concat_eq_append, same]
    simp [times]

theorem flat_tail_pair (before : List Breakpoint) (next last : Breakpoint) :
    flatTail (before ++ [next, last]) = before ++ [next, { last with value := next.value }] := by
  induction before with
  | nil => rfl
  | cons first rest ih =>
      rw [List.cons_append, List.cons_append, ← ih]
      cases rest with
      | nil => rfl
      | cons second others => cases others <;> rfl

theorem last_pair_cases (points : List Breakpoint) :
    points = [] ∨ (∃ point, points = [point]) ∨ ∃ before next last, points = before ++ [next, last] := by
  rcases List.eq_nil_or_concat points with rfl | ⟨before, last, rfl⟩
  · exact .inl rfl
  rcases List.eq_nil_or_concat before with rfl | ⟨earlier, next, rfl⟩
  · exact .inr (.inl ⟨last, rfl⟩)
  · exact .inr (.inr ⟨earlier, next, last, by simp⟩)

theorem flat_tail_flat_tail (points : List Breakpoint) :
    flatTail (flatTail points) = flatTail points := by
  rcases last_pair_cases points with rfl | ⟨point, rfl⟩ | ⟨before, next, last, rfl⟩
  · rfl
  · rfl
  · rw [flat_tail_pair, flat_tail_pair]

theorem mem_values_of_flat_tail {points : List Breakpoint} {value : Decimal}
    (member : value ∈ values (flatTail points)) : value ∈ values points := by
  rcases last_pair_cases points with rfl | ⟨point, rfl⟩ | ⟨before, next, last, rfl⟩
  · exact member
  · exact member
  · rw [flat_tail_pair] at member
    simp only [values, List.map_append, List.map_cons, List.map_nil, List.mem_append,
      List.mem_cons, List.not_mem_nil, or_false] at member ⊢
    tauto

theorem duration_eq_last_time (points : List Breakpoint) :
    duration points = (times points).getLast?.getD 0 := by
  simp [duration, times, List.getLast?_map]

theorem well_formed_of_times {first second : List Breakpoint} (same : times first = times second)
    (formed : WellFormed first) : WellFormed second := by
  constructor
  · have starts := formed.starts
    rw [← List.head?_map] at starts ⊢
    rw [← starts]
    exact congrArg List.head? same.symm
  · have increasing := formed.increasing
    rw [← List.pairwise_map (f := Breakpoint.time) (R := (· < ·))] at increasing ⊢
    have sameTimes : first.map Breakpoint.time = second.map Breakpoint.time := same
    rwa [sameTimes] at increasing

/-- Before the end, the same points hold once the tail is flat. -/
theorem holds_flat_tail (points : List Breakpoint) {time : Decimal}
    (before : time < duration points) {point : Breakpoint}
    (holds : Holds (flatTail points) time point) : Holds points time point := by
  rcases List.eq_nil_or_concat points with rfl | ⟨earlier, last, rfl⟩
  · exact holds
  · obtain ⟨value, same⟩ := flat_tail_concat earlier last
    rw [List.concat_eq_append] at before holds ⊢
    rw [same] at holds
    have lastLater : time < last.time := by simpa [duration] using before
    have kept : ∀ other : Breakpoint, other.time ≤ time →
        (other ∈ earlier ++ [⟨last.time, value⟩] ↔ other ∈ earlier ++ [last]) := by
      intro other notLater
      have notLast : ∀ anything : Breakpoint, anything.time = last.time → other ≠ anything := by
        rintro anything sameTime rfl
        exact absurd notLater (not_le.2 (sameTime ▸ lastLater))
      simp [notLast ⟨last.time, value⟩ rfl, notLast last rfl]
    exact ⟨(kept point holds.notLater).1 holds.member, holds.notLater,
      fun other member notLater =>
        holds.latest other ((kept other notLater).2 member) notLater⟩

section Combined

variable {points first second : List Breakpoint}

theorem last_time_le {time : Decimal} (formed : WellFormed points) (member : time ∈ times points) :
    time ≤ duration points := by
  obtain ⟨point, pointMember, rfl⟩ := List.mem_map.1 member
  exact formed.time_le_duration pointMember

theorem time_nonneg_of_mem {time : Decimal} (formed : WellFormed points)
    (member : time ∈ times points) : 0 ≤ time := by
  obtain ⟨point, pointMember, rfl⟩ := List.mem_map.1 member
  exact formed.time_nonneg pointMember

/-- Points at the times of two lists of points, with the values of a function. -/
def merged (first second : List Breakpoint) (value : Decimal → Decimal) : List Breakpoint :=
  (union (times first) (times second)).map fun time => ⟨time, value time⟩

theorem times_merged (value : Decimal → Decimal) :
    times (merged first second value) = union (times first) (times second) := by
  simp [merged, times, Function.comp_def]

theorem merged_well_formed (firstFormed : WellFormed first) (secondFormed : WellFormed second)
    (value : Decimal → Decimal) : WellFormed (merged first second value) := by
  constructor
  · obtain ⟨firstValue, firstRest, firstSame⟩ := firstFormed.split_first
    obtain ⟨secondValue, secondRest, secondSame⟩ := secondFormed.split_first
    rw [← List.head?_map]
    change (times (merged first second value)).head? = some 0
    rw [times_merged, firstSame, secondSame]
    simp [times, union, mergeFrom]
  · rw [← List.pairwise_map (f := Breakpoint.time) (R := (· < ·))]
    change (times (merged first second value)).Pairwise (· < ·)
    rw [times_merged]
    exact union_increasing _ _ firstFormed.times_increasing secondFormed.times_increasing

theorem duration_merged (firstFormed : WellFormed first) (secondFormed : WellFormed second)
    (value : Decimal → Decimal) :
    duration (merged first second value) = max (duration first) (duration second) := by
  have formed := merged_well_formed firstFormed secondFormed value
  apply le_antisymm
  · have member := formed.duration_mem_times
    rw [times_merged, mem_union] at member
    rcases member with inFirst | inSecond
    · exact (last_time_le firstFormed inFirst).trans (le_max_left _ _)
    · exact (last_time_le secondFormed inSecond).trans (le_max_right _ _)
  · apply max_le
    · apply last_time_le formed
      rw [times_merged, mem_union]
      exact Or.inl firstFormed.duration_mem_times
    · apply last_time_le formed
      rw [times_merged, mem_union]
      exact Or.inr secondFormed.duration_mem_times

/-- The points between two times with a value at the start and one at the end. -/
def cutOut (points : List Breakpoint) (start stop first last : Decimal) : List Breakpoint :=
  ⟨0, first⟩ :: inside points start stop ++
    if start < stop then [⟨stop - start, last⟩] else []

theorem mem_cut_out (formed : WellFormed points) (start stop first last : Decimal)
    (point : Breakpoint) :
    point ∈ cutOut points start stop first last ↔
      point = ⟨0, first⟩ ∨
      (∃ original ∈ points, start < original.time ∧ original.time < stop ∧
        point = original.shift (-start)) ∨
      (start < stop ∧ point = ⟨stop - start, last⟩) := by
  unfold cutOut
  rw [List.cons_append, List.mem_cons, List.mem_append, mem_inside points formed]
  split_ifs with proper <;> simp [proper]

theorem cut_out_well_formed (formed : WellFormed points) (start stop first last : Decimal) :
    WellFormed (cutOut points start stop first last) := by
  constructor
  · rfl
  · unfold cutOut
    rw [List.cons_append, List.pairwise_cons, List.pairwise_append]
    have insideBounds : ∀ point ∈ inside points start stop,
        0 < point.time ∧ point.time < stop - start := by
      intro point member
      obtain ⟨original, originalMember, afterStart, beforeStop, rfl⟩ :=
        (mem_inside points formed start stop point).1 member
      simp only [Breakpoint.shift]
      constructor <;> linarith
    refine ⟨fun point member => ?_, inside_increasing points formed start stop, ?_, ?_⟩
    · rcases List.mem_append.1 member with inner | final
      · exact (insideBounds point inner).1
      · split_ifs at final with proper
        · rw [List.mem_singleton.1 final]
          change 0 < stop - start
          linarith
        · exact absurd final (List.not_mem_nil)
    · split_ifs <;> simp
    · intro point inner final finalMember
      split_ifs at finalMember with proper
      · rw [List.mem_singleton.1 finalMember]
        exact (insideBounds point inner).2
      · exact absurd finalMember (List.not_mem_nil)

theorem mem_times_cut_out (formed : WellFormed points) {start stop first last time : Decimal}
    (nonneg : 0 ≤ time) (bounded : time ≤ stop - start) (member : time + start ∈ times points) :
    time ∈ times (cutOut points start stop first last) := by
  have found : ∀ point ∈ cutOut points start stop first last,
      point.time ∈ times (cutOut points start stop first last) :=
    fun _ pointMember => List.mem_map_of_mem pointMember
  rcases nonneg.eq_or_lt with rfl | positive
  · exact found ⟨0, first⟩ ((mem_cut_out formed start stop _ _ _).2 (Or.inl rfl))
  rcases bounded.eq_or_lt with rfl | before
  · apply found ⟨stop - start, last⟩
    exact (mem_cut_out formed start stop _ _ _).2 (Or.inr (Or.inr ⟨sub_pos.1 positive, rfl⟩))
  · rcases List.mem_map.1 member with ⟨point, pointMember, pointTime⟩
    have moved : (point.shift (-start)).time = time := by
      simp only [Breakpoint.shift, pointTime]
      ring
    rw [← moved]
    apply found
    refine (mem_cut_out formed start stop _ _ _).2
      (Or.inr (Or.inl ⟨point, pointMember, ?_, ?_, rfl⟩))
    · linarith
    · linarith

theorem cut_out_empty (increasing : (times points).Pairwise (· < ·)) (start first last : Decimal) :
    cutOut points start start first last = [⟨0, first⟩] := by
  rw [cutOut, inside_empty increasing, if_neg (lt_irrefl _)]
  rfl

theorem flat_tail_cut_out (increasing : (times points).Pairwise (· < ·)) {start stop : Decimal}
    (ordered : start ≤ stop) (first last : Decimal) :
    ∃ value, flatTail (cutOut points start stop first last) =
      cutOut points start stop first value := by
  rcases ordered.eq_or_lt with rfl | proper
  · rw [cut_out_empty increasing]
    exact ⟨last, (cut_out_empty increasing start first last).symm⟩
  · simp only [cutOut, if_pos proper]
    exact flat_tail_concat _ _

theorem duration_cut_out (formed : WellFormed points) {start stop : Decimal}
    (ordered : start ≤ stop) (first last : Decimal) :
    duration (cutOut points start stop first last) = stop - start := by
  rcases ordered.eq_or_lt with rfl | proper
  · rw [cut_out_empty formed.times_increasing, sub_self]
    rfl
  · rw [cutOut, if_pos proper, duration, List.getLast?_concat]
    rfl

/-- Points one after the other: the first without the last, and all of the second, moved. -/
def joined (first second : List Breakpoint) : List Breakpoint :=
  first.dropLast ++ second.map (·.shift (duration first))

theorem mem_drop_last_time_lt (formed : WellFormed first) {point : Breakpoint}
    (member : point ∈ first.dropLast) : point.time < duration first := by
  obtain ⟨before, last, same, lastTime⟩ := formed.split_last
  rw [← lastTime]
  rw [same, List.dropLast_concat] at member
  have increasing := formed.increasing
  rw [same] at increasing
  exact (List.pairwise_append.1 increasing).2.2 point member last (by simp)

theorem mem_of_mem_of_time_lt (formed : WellFormed first) {point : Breakpoint}
    (member : point ∈ first) (before : point.time < duration first) : point ∈ first.dropLast := by
  obtain ⟨earlier, last, same, lastTime⟩ := formed.split_last
  rw [same, List.dropLast_concat]
  rw [same] at member
  rcases List.mem_append.1 member with inside | final
  · exact inside
  · rw [List.mem_singleton.1 final, lastTime] at before
    exact absurd before (lt_irrefl _)

theorem joined_of_empty (formed : WellFormed first) (empty : duration first = 0) :
    joined first second = second := by
  rcases formed.single_of_empty empty with ⟨value, single⟩
  rw [joined, empty, single]
  simp [Breakpoint.shift]

theorem joined_well_formed (firstFormed : WellFormed first) (secondFormed : WellFormed second) :
    WellFormed (joined first second) := by
  rcases firstFormed.duration_nonneg.eq_or_lt with empty | positive
  · rw [joined_of_empty firstFormed empty.symm]
    exact secondFormed
  constructor
  · obtain ⟨value, rest, firstSame⟩ := firstFormed.split_first
    unfold joined
    cases rest with
    | nil =>
        rw [firstSame] at positive
        exact absurd positive (lt_irrefl _)
    | cons next others =>
        rw [firstSame]
        rfl
  · unfold joined
    rw [List.pairwise_append]
    refine ⟨firstFormed.increasing.sublist (List.dropLast_sublist _), ?_, ?_⟩
    · apply List.Pairwise.map _ _ secondFormed.increasing
      intro one other ordered
      simpa [Breakpoint.shift] using ordered
    · intro point member moved movedMember
      obtain ⟨original, originalMember, rfl⟩ := List.mem_map.1 movedMember
      have early := mem_drop_last_time_lt firstFormed member
      have late := secondFormed.time_nonneg originalMember
      change point.time < original.time + duration first
      linarith

theorem duration_joined (secondFormed : WellFormed second) :
    duration (joined first second) = duration first + duration second := by
  obtain ⟨before, last, same, lastTime⟩ := secondFormed.split_last
  unfold joined
  rw [← lastTime, same, List.map_append, ← List.append_assoc]
  simp [duration, Breakpoint.shift, add_comm]

theorem joined_assoc {third : List Breakpoint} (secondFormed : WellFormed second) :
    joined (joined first second) third = joined first (joined second third) := by
  have total : duration (joined first second) = duration first + duration second :=
    duration_joined secondFormed
  have notEmpty : second.map (·.shift (duration first)) ≠ [] := by
    simpa using secondFormed.ne_nil
  simp only [joined] at total ⊢
  rw [total, List.dropLast_append_of_ne_nil notEmpty]
  simp [Breakpoint.shift, Function.comp_def, add_comm, add_left_comm]

end Combined

theorem first_not_increasing_none_iff (timeList : List Decimal) :
    firstNotIncreasing timeList = none ↔ timeList.Pairwise (· < ·) := by
  rw [← List.isChain_iff_pairwise]
  induction timeList with
  | nil => simp [firstNotIncreasing]
  | cons first rest ih =>
      cases rest with
      | nil => simp [firstNotIncreasing]
      | cons second others =>
          rw [firstNotIncreasing, List.isChain_cons_cons, ← ih]
          split_ifs with before <;> simp [before]

theorem lists_of_zip {timeList valueList : List Decimal}
    (sameLength : timeList.length = valueList.length) :
    times (List.zipWith Breakpoint.mk timeList valueList) = timeList ∧
      values (List.zipWith Breakpoint.mk timeList valueList) = valueList := by
  rw [← List.map_uncurry_zip_eq_zipWith, times, values, List.map_map, List.map_map]
  exact ⟨List.map_fst_zip sameLength.le, List.map_snd_zip sameLength.ge⟩

/-- As many values as times, and times that start at zero and increase strictly. -/
structure Paired (timeList valueList : List Decimal) : Prop where
  sameLength : timeList.length = valueList.length
  starts : timeList.head? = some 0
  increasing : timeList.Pairwise (· < ·)

theorem of_lists_ok_iff (timeList valueList : List Decimal) (points : List Breakpoint) :
    ofLists timeList valueList = .ok points ↔
      Paired timeList valueList ∧ List.zipWith Breakpoint.mk timeList valueList = points := by
  unfold ofLists
  cases timeList with
  | nil =>
      constructor
      · intro made
        cases made
      · rintro ⟨paired, _⟩
        cases paired.starts
  | cons first rest =>
      have parts : Paired (first :: rest) valueList ↔
          (first :: rest).length = valueList.length ∧ first = 0 ∧
            firstNotIncreasing (first :: rest) = none := by
        rw [first_not_increasing_none_iff]
        exact ⟨fun paired => ⟨paired.sameLength, Option.some.inj paired.starts, paired.increasing⟩,
          fun ⟨sameLength, starts, increasing⟩ => ⟨sameLength, by rw [starts]; rfl, increasing⟩⟩
      rw [parts]
      dsimp only
      split_ifs with different late
      · exact iff_of_false (by simp) fun paired => different paired.1.1
      · rw [Bool.not_eq_true', Decimal.is_zero_false_iff] at late
        exact iff_of_false (by simp) fun paired => late paired.1.2.1
      · rw [Bool.not_eq_true', Decimal.is_zero_false_iff, not_not] at late
        cases found : firstNotIncreasing (first :: rest) with
        | some time => simp
        | none =>
            exact ⟨fun made => ⟨⟨not_not.1 different, late, rfl⟩, Except.ok.inj made⟩,
              fun ⟨_, made⟩ => congrArg Except.ok made⟩

theorem well_formed_of_paired {timeList valueList : List Decimal} {points : List Breakpoint}
    (paired : Paired timeList valueList) (sameTimes : times points = timeList) :
    WellFormed points := by
  constructor
  · rw [← List.head?_map]
    exact (congrArg List.head? sameTimes).trans paired.starts
  · have increasing := paired.increasing
    rw [← sameTimes] at increasing
    exact List.pairwise_map.1 increasing

/-- Well-formed breakpoints are made of their own times and values. -/
theorem of_own_lists {timeList valueList : List Decimal} {points : List Breakpoint}
    (paired : Paired timeList valueList) (sameTimes : times points = timeList) :
    ofLists (times points) (values points) = .ok points := by
  refine (of_lists_ok_iff _ _ _).2 ⟨⟨?_, ?_, ?_⟩, ?_⟩
  · rw [times, values, List.length_map, List.length_map]
  · rw [sameTimes]
    exact paired.starts
  · rw [sameTimes]
    exact paired.increasing
  · rw [times, values, List.zipWith_map]
    exact List.zipWith_self.trans (List.map_id _)

end Analog.Breakpoints

namespace Analog.Series

open Breakpoints

def ofPoints (target : Target) (points : List Breakpoint) : Series :=
  match target with
  | .linear => .linear ⟨points⟩
  | .constant => .constant ⟨flatTail points⟩

theorem of_lists_ok_iff (target : Target) (timeList valueList : List Decimal) (series : Series) :
    ofLists target timeList valueList = .ok series ↔
      ∃ points, Breakpoints.ofLists timeList valueList = .ok points ∧
        ofPoints target points = series := by
  cases target <;>
    cases paired : Breakpoints.ofLists timeList valueList <;>
    simp [ofLists, LinearSeries.ofLists, ConstantSeries.ofLists, paired, ofPoints, Except.map,
      Outcome.blame, Functor.map]

/-- A series that is made of two lists is made of its own times and values. -/
theorem of_own_lists {target : Target} {timeList valueList : List Decimal} {series : Series}
    (made : ofLists target timeList valueList = .ok series) :
    ofLists series.target (times series.points) (values series.points) = .ok series := by
  obtain ⟨points, fromLists, rfl⟩ := (of_lists_ok_iff target timeList valueList series).1 made
  obtain ⟨paired, rfl⟩ := (Breakpoints.of_lists_ok_iff _ _ _).1 fromLists
  have sameTimes := (lists_of_zip paired.sameLength).1
  cases target with
  | linear => exact (of_lists_ok_iff _ _ _ _).2 ⟨_, Breakpoints.of_own_lists paired sameTimes, rfl⟩
  | constant =>
      refine (of_lists_ok_iff _ _ _ _).2 ⟨_, Breakpoints.of_own_lists paired ?_, ?_⟩
      · exact (times_flat_tail _).trans sameTimes
      · exact congrArg (fun points => Series.constant ⟨points⟩) (flat_tail_flat_tail _)

end Analog.Series
