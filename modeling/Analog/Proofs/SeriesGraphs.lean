import Analog.Proofs.CutSeries
import Analog.Proofs.RoundedQuotients

/-!
# Exact values of linear series

A series as a function to the rational numbers, without the rounding between breakpoints. It is
the only function through the breakpoints that is straight between them, which tells what sums,
parts and wholes of series are. What a series is evaluated to is exact where no value has more
digits than a quotient.
-/

set_option autoImplicit false

namespace Analog.Breakpoints

def Straight (f : Decimal → ℚ) (start stop : Decimal) : Prop :=
  ∃ slope offset : ℚ, ∀ time, start ≤ time → time ≤ stop → f time = slope * time.toRat + offset

section Straight

variable {f g : Decimal → ℚ} {start stop : Decimal}

theorem straight_level {value : ℚ} (each : ∀ time, start ≤ time → time ≤ stop → f time = value) :
    Straight f start stop := by
  refine ⟨0, value, fun time after before => ?_⟩
  rw [each time after before, zero_mul, zero_add]

theorem Straight.congr (straight : Straight f start stop)
    (same : ∀ time, start ≤ time → time ≤ stop → g time = f time) : Straight g start stop := by
  rcases straight with ⟨slope, offset, each⟩
  refine ⟨slope, offset, fun time after before => ?_⟩
  rw [same time after before, each time after before]

theorem Straight.within {first last : Decimal} (straight : Straight f start stop)
    (later : start ≤ first) (earlier : last ≤ stop) : Straight f first last := by
  rcases straight with ⟨slope, offset, each⟩
  exact ⟨slope, offset, fun time after before =>
    each time (later.trans after) (before.trans earlier)⟩

theorem Straight.add (one : Straight f start stop) (two : Straight g start stop) :
    Straight (fun time => f time + g time) start stop := by
  rcases one with ⟨slope, offset, each⟩
  rcases two with ⟨slope', offset', each'⟩
  refine ⟨slope + slope', offset + offset', fun time after before => ?_⟩
  dsimp only
  rw [each time after before, each' time after before]
  ring

theorem Straight.shift (straight : Straight f start stop) (delay : Decimal) :
    Straight (fun time => f (time + delay)) (start - delay) (stop - delay) := by
  rcases straight with ⟨slope, offset, each⟩
  refine ⟨slope, slope * delay.toRat + offset, fun time after before => ?_⟩
  dsimp only
  rw [each _ (sub_le_iff_le_add.1 after) (le_sub_iff_add_le.1 before), Decimal.to_rat_add]
  ring

theorem Straight.eq_between (one : Straight f start stop) (two : Straight g start stop)
    (proper : start < stop) (atStart : f start = g start) (atStop : f stop = g stop)
    {time : Decimal} (after : start ≤ time) (before : time ≤ stop) : f time = g time := by
  rcases one with ⟨slope, offset, each⟩
  rcases two with ⟨slope', offset', each'⟩
  rw [each start le_rfl proper.le, each' start le_rfl proper.le] at atStart
  rw [each stop proper.le le_rfl, each' stop proper.le le_rfl] at atStop
  have apart : stop.toRat - start.toRat ≠ 0 :=
    (sub_pos.2 ((Decimal.lt_iff_to_rat _ _).1 proper)).ne'
  have product : (slope - slope') * (stop.toRat - start.toRat) = 0 := by linarith
  have sameSlope : slope = slope' := sub_eq_zero.1 ((mul_eq_zero.1 product).resolve_right apart)
  rw [each time after before, each' time after before]
  rw [sameSlope] at atStart ⊢
  linarith

end Straight

/-- The exact value at a time on the line through two breakpoints. -/
def exactLine (first second : Breakpoint) (time : Decimal) : ℚ :=
  first.value.toRat + (second.value.toRat - first.value.toRat) /
    (second.time.toRat - first.time.toRat) * (time.toRat - first.time.toRat)

theorem exact_line_start (first second : Breakpoint) :
    exactLine first second first.time = first.value.toRat := by
  unfold exactLine
  rw [sub_self, mul_zero, add_zero]

theorem exact_line_stop {first second : Breakpoint} (ordered : first.time < second.time) :
    exactLine first second second.time = second.value.toRat := by
  have apart : second.time.toRat - first.time.toRat ≠ 0 :=
    (sub_pos.2 ((Decimal.lt_iff_to_rat _ _).1 ordered)).ne'
  unfold exactLine
  rw [div_mul_cancel₀ _ apart]
  ring

theorem exact_line_level {first second : Breakpoint} (level : first.value = second.value)
    (time : Decimal) : exactLine first second time = first.value.toRat := by
  unfold exactLine
  rw [level, sub_self, zero_div, zero_mul, add_zero]

theorem exact_line_straight (first second : Breakpoint) (start stop : Decimal) :
    Straight (exactLine first second) start stop := by
  refine ⟨(second.value.toRat - first.value.toRat) / (second.time.toRat - first.time.toRat),
    first.value.toRat - (second.value.toRat - first.value.toRat) /
      (second.time.toRat - first.time.toRat) * first.time.toRat, fun time _ _ => ?_⟩
  unfold exactLine
  ring

def Neighbours (points : List Breakpoint) (first second : Breakpoint) : Prop :=
  ∃ index : Nat, points[index]? = some first ∧ points[index + 1]? = some second

section Neighbours

variable {points : List Breakpoint} {first second : Breakpoint} {time : Decimal}

theorem Neighbours.first_mem (neighbours : Neighbours points first second) : first ∈ points := by
  rcases neighbours with ⟨_, firstAt, _⟩
  exact List.mem_of_getElem? firstAt

theorem Neighbours.second_mem (neighbours : Neighbours points first second) : second ∈ points := by
  rcases neighbours with ⟨_, _, secondAt⟩
  exact List.mem_of_getElem? secondAt

theorem Neighbours.ordered (neighbours : Neighbours points first second)
    (formed : WellFormed points) : first.time < second.time := by
  rcases neighbours with ⟨index, firstAt, secondAt⟩
  rcases List.getElem?_eq_some_iff.1 firstAt with ⟨inside, rfl⟩
  rcases List.getElem?_eq_some_iff.1 secondAt with ⟨nextInside, rfl⟩
  exact List.pairwise_iff_getElem.1 formed.increasing _ _ inside nextInside (Nat.lt_succ_self _)

theorem Neighbours.apart (neighbours : Neighbours points first second)
    (formed : WellFormed points) (member : time ∈ times points) :
    time ≤ first.time ∨ second.time ≤ time := by
  rcases neighbours with ⟨index, firstAt, secondAt⟩
  rcases List.getElem?_eq_some_iff.1 firstAt with ⟨inside, rfl⟩
  rcases List.getElem?_eq_some_iff.1 secondAt with ⟨nextInside, rfl⟩
  rcases List.mem_map.1 member with ⟨point, pointMember, rfl⟩
  rcases List.getElem_of_mem pointMember with ⟨position, positionInside, rfl⟩
  have increasing := List.pairwise_iff_getElem.1 formed.increasing
  rcases lt_trichotomy position index with earlier | same | later
  · exact .inl (increasing _ _ positionInside inside earlier).le
  · subst same
    exact .inl le_rfl
  · rcases (Nat.succ_le_of_lt later).eq_or_lt with next | beyond
    · subst next
      exact .inr le_rfl
    · exact .inr (increasing _ _ nextInside positionInside beyond).le

theorem neighbours_around (formed : WellFormed points) (nonneg : 0 ≤ time)
    (before : time < duration points) :
    ∃ first second, Neighbours points first second ∧ first.time ≤ time ∧ time < second.time := by
  rcases holds_segment points formed time nonneg with ⟨first, found, holds⟩
  cases next : points[segment (times points) time + 1]? with
  | some second =>
      have neighbours : Neighbours points first second := ⟨_, found, next⟩
      refine ⟨first, second, neighbours, holds.notLater, ?_⟩
      by_contra notBefore
      have latest := holds.latest second neighbours.second_mem (not_lt.1 notBefore)
      exact absurd (neighbours.ordered formed) (not_lt.2 latest)
  | none =>
      rcases formed.split_last with ⟨earlier, last, same, lastTime⟩
      rcases List.getElem?_eq_some_iff.1 found with ⟨inside, _⟩
      rw [List.getElem?_eq_none_iff] at next
      have isLast : segment (times points) time = points.length - 1 := by omega
      rw [isLast, ← List.getLast?_eq_getElem?, same, List.getLast?_concat, Option.some.injEq]
        at found
      have reached := holds.notLater
      rw [← found, lastTime] at reached
      exact absurd before (not_lt.2 reached)

end Neighbours

end Analog.Breakpoints

namespace Analog.LinearSeries

open Breakpoints

/-- The exact value of a series at a time, zero outside the domain. -/
def graph (series : LinearSeries) (time : Decimal) : ℚ :=
  if time < 0 ∨ series.duration < time then 0
  else valueOn exactLine (·.value.toRat) series.points time

variable {series first second : LinearSeries} {start stop time : Decimal}

theorem graph_outside (outside : time < 0 ∨ series.duration < time) : series.graph time = 0 := by
  unfold graph
  rw [if_pos outside]

theorem graph_inside (nonneg : 0 ≤ time) (reached : time ≤ series.duration) :
    series.graph time = valueOn exactLine (·.value.toRat) series.points time := by
  unfold graph
  rw [if_neg (not_or.2 ⟨not_lt.2 nonneg, not_lt.2 reached⟩)]

theorem graph_before_next (formed : WellFormed series.points) {one other : Breakpoint}
    (neighbours : Neighbours series.points one other) (after : one.time ≤ time)
    (before : time < other.time) : series.graph time = exactLine one other time := by
  have nonneg := (formed.time_nonneg neighbours.first_mem).trans after
  have reached := before.le.trans (formed.time_le_duration neighbours.second_mem)
  rw [graph_inside nonneg reached]
  rcases neighbours with ⟨index, oneAt, otherAt⟩
  exact value_on_segment exactLine (·.value.toRat) formed.increasing oneAt otherAt after before

theorem graph_of_mem (formed : WellFormed series.points) {point : Breakpoint}
    (member : point ∈ series.points) : series.graph point.time = point.value.toRat := by
  have nonneg := formed.time_nonneg member
  have reached := formed.time_le_duration member
  by_cases before : point.time < series.duration
  · rcases neighbours_around formed nonneg before with ⟨one, other, neighbours, after, notYet⟩
    have isFirst : point.time = one.time := by
      rcases neighbours.apart formed (List.mem_map_of_mem member) with early | late
      · exact le_antisymm early after
      · exact absurd notYet (not_lt.2 late)
    rw [graph_before_next formed neighbours after notYet, isFirst, exact_line_start,
      formed.eq_of_time_eq member neighbours.first_mem isFirst]
  · rcases formed.split_last with ⟨earlier, last, same, lastTime⟩
    have atEnd : point.time = last.time := (le_antisymm reached (not_lt.1 before)).trans lastTime.symm
    have isLast : point = last := formed.eq_of_time_eq member (by simp [same]) atEnd
    have increasing := formed.increasing
    rw [graph_inside nonneg reached, isLast, same]
    rw [same] at increasing
    exact value_on_last exactLine (·.value.toRat) increasing le_rfl

theorem graph_between (formed : WellFormed series.points) {one other : Breakpoint}
    (neighbours : Neighbours series.points one other) (after : one.time ≤ time)
    (before : time ≤ other.time) : series.graph time = exactLine one other time := by
  rcases before.eq_or_lt with rfl | notYet
  · rw [graph_of_mem formed neighbours.second_mem, exact_line_stop (neighbours.ordered formed)]
  · exact graph_before_next formed neighbours after notYet

theorem graph_straight (formed : WellFormed series.points) (nonneg : 0 ≤ start)
    (proper : start < stop) (reached : stop ≤ series.duration)
    (apart : ∀ other ∈ times series.points, other ≤ start ∨ stop ≤ other) :
    Straight series.graph start stop := by
  rcases neighbours_around formed nonneg (proper.trans_le reached) with
    ⟨one, other, neighbours, after, notYet⟩
  have beyond : stop ≤ other.time :=
    (apart _ (List.mem_map_of_mem neighbours.second_mem)).resolve_left (not_le.2 notYet)
  apply (exact_line_straight one other start stop).congr
  intro time started ended
  exact graph_between formed neighbours (after.trans started) (ended.trans beyond)

/-- Only the graph goes through all breakpoints and is straight between them. -/
theorem eq_graph (formed : WellFormed series.points) {f : Decimal → ℚ}
    (through : ∀ point ∈ series.points, f point.time = point.value.toRat)
    (straight : ∀ start ∈ times series.points, ∀ stop ∈ times series.points, start < stop →
      (∀ other ∈ times series.points, other ≤ start ∨ stop ≤ other) → Straight f start stop)
    (nonneg : 0 ≤ time) (reached : time ≤ series.duration) : f time = series.graph time := by
  rcases reached.eq_or_lt with rfl | before
  · rcases List.mem_map.1 formed.duration_mem_times with ⟨point, member, atEnd⟩
    have atLast : point.time = series.duration := atEnd
    rw [← atLast, through point member, graph_of_mem formed member]
  · rcases neighbours_around formed nonneg before with ⟨one, other, neighbours, after, notYet⟩
    have ordered := neighbours.ordered formed
    have oneMember := neighbours.first_mem
    have otherMember := neighbours.second_mem
    have own := (exact_line_straight one other one.time other.time).congr
      (g := series.graph) fun _ => graph_between formed neighbours
    have given := straight one.time (List.mem_map_of_mem oneMember) other.time
      (List.mem_map_of_mem otherMember) ordered fun _ => neighbours.apart formed
    apply given.eq_between own ordered _ _ after notYet.le
    · rw [through one oneMember, graph_of_mem formed oneMember]
    · rw [through other otherMember, graph_of_mem formed otherMember]

theorem graph_thinned {thinned : LinearSeries} (formed : WellFormed series.points)
    (thins : ThinsTo series thinned) (time : Decimal) :
    thinned.graph time = series.graph time := by
  have lasts : thinned.duration = series.duration := thins.duration_eq
  by_cases outside : time < 0 ∨ series.duration < time
  · rw [graph_outside outside, graph_outside (by rwa [lasts])]
  · rw [not_or, not_lt, not_lt] at outside
    rw [graph_inside outside.1 outside.2, graph_inside outside.1 (by rw [lasts]; exact outside.2)]
    apply Thins.value_on_eq _ _ thins formed
    · exact fun _ _ level _ => exact_line_level level
    · exact fun _ _ same => congrArg Decimal.toRat same

theorem graph_of_level {value : Decimal} (formed : WellFormed series.points)
    (level : Level series value) (nonneg : 0 ≤ time) (reached : time ≤ series.duration) :
    series.graph time = value.toRat := by
  refine (eq_graph formed (f := fun _ => value.toRat) (fun point member => ?_)
    (fun _ _ _ _ _ _ => straight_level fun _ _ _ => rfl) nonneg reached).symm
  exact congrArg Decimal.toRat (level point member).symm

/-- A line between equal values lasts as given and has that value throughout. -/
theorem graph_of_constant {extent value : Decimal} (positive : 0 < extent)
    (same : series = line extent value value) :
    series.duration = extent ∧
      ∀ time, 0 ≤ time → time ≤ extent → series.graph time = value.toRat := by
  have spans : Spans series extent value _ := same ▸ line_spans positive.le
  have level : Level series value := same ▸ line_is_level extent value
  refine ⟨spans.lasts, fun time nonneg reached => ?_⟩
  rw [← spans.lasts] at reached
  exact graph_of_level spans.formed level nonneg reached

theorem graph_of_zero_level (formed : WellFormed series.points) (level : Level series 0)
    (time : Decimal) : series.graph time = 0 := by
  by_cases outside : time < 0 ∨ series.duration < time
  · exact graph_outside outside
  · rw [not_or, not_lt, not_lt] at outside
    rw [graph_of_level formed level outside.1 outside.2, Decimal.to_rat_zero]

theorem times_map (f : Decimal → Decimal) (series : LinearSeries) :
    times (series.map f).points = times series.points := by
  simp [map, mapValues, times, Function.comp_def]

theorem duration_map (f : Decimal → Decimal) (series : LinearSeries) :
    (series.map f).duration = series.duration := by
  simp [LinearSeries.duration, Breakpoints.duration, map, mapValues, Function.comp_def]

theorem graph_map (factor : Decimal) (series : LinearSeries) (time : Decimal) :
    (series.map (factor * ·)).graph time = factor.toRat * series.graph time := by
  have each : ∀ points : List Breakpoint,
      valueOn exactLine (·.value.toRat) (mapValues (factor * ·) points) time =
        factor.toRat * valueOn exactLine (·.value.toRat) points time := by
    intro points
    induction points with
    | nil => exact (mul_zero _).symm
    | cons point rest ih =>
        cases rest with
        | nil => exact Decimal.to_rat_mul _ _
        | cons next others =>
            simp only [mapValues, List.map_cons, value_on_cons] at ih ⊢
            split_ifs
            · simp only [exactLine, Decimal.to_rat_mul]
              ring
            · exact ih
  unfold graph
  rw [duration_map]
  split_ifs
  · rw [mul_zero]
  · exact each series.points

theorem graph_negate (series : LinearSeries) (time : Decimal) :
    (series.map (-·)).graph time = -series.graph time := by
  have negation : (series.map (-·)) = series.map ((-1) * ·) := by
    simp only [neg_one_mul]
  rw [negation, graph_map, Decimal.to_rat_neg, Decimal.to_rat_one, neg_one_mul]

/-- The value of a series at a time is evaluated without rounding. -/
def ExactAt (series : LinearSeries) (time : Decimal) : Prop :=
  (series.eval time).toRat = series.graph time

theorem exact_at_breakpoint (formed : WellFormed series.points)
    (member : time ∈ times series.points) : series.ExactAt time := by
  rcases List.mem_map.1 member with ⟨point, pointMember, rfl⟩
  unfold ExactAt
  rw [eval_of_mem formed pointMember, graph_of_mem formed pointMember]

theorem exact_at_outside (outside : time < 0 ∨ series.duration < time) : series.ExactAt time := by
  unfold ExactAt eval
  rw [graph_outside outside, if_pos (by simpa using outside), Decimal.to_rat_zero]

/-- A quotient without rounding leaves the value between two breakpoints exact. -/
theorem on_line_exact {one other : Breakpoint} (ordered : one.time < other.time) {value : Decimal}
    (valueDigits : value.scale ≤ Decimal.quotientPlaces)
    (oneDigits : one.value.scale ≤ Decimal.quotientPlaces)
    (reaches : exactLine one other time = value.toRat) : onLine one other time = value := by
  have positive : 0 < other.time - one.time := sub_pos.2 ordered
  have apart : other.time.toRat - one.time.toRat ≠ 0 :=
    (sub_pos.2 ((Decimal.lt_iff_to_rat _ _).1 ordered)).ne'
  have product : (other.value - one.value) * (time - one.time) =
      (value - one.value) * (other.time - one.time) := by
    apply Decimal.to_rat_injective
    simp only [Decimal.to_rat_mul, Decimal.to_rat_sub, ← reaches, exactLine]
    rw [add_sub_cancel_left, mul_right_comm, div_mul_cancel₀ _ apart]
  have digits : (value - one.value).scale ≤ Decimal.quotientPlaces :=
    (Decimal.sub_scale_le _ _).trans (max_le valueDigits oneDigits)
  unfold onLine
  rw [product, Decimal.mul_div_cancel positive digits, Option.getD_some, add_sub_cancel]

/-- Where neither the value nor the breakpoints have too many digits, nothing is rounded. -/
theorem eval_eq_of_graph (formed : WellFormed series.points)
    (digits : ∀ point ∈ series.points, point.value.scale ≤ Decimal.quotientPlaces)
    {value : Decimal} (valueDigits : value.scale ≤ Decimal.quotientPlaces)
    (reaches : series.graph time = value.toRat) (nonneg : 0 ≤ time)
    (reached : time ≤ series.duration) : series.eval time = value := by
  rcases reached.eq_or_lt with rfl | before
  · have exact := exact_at_breakpoint formed formed.duration_mem_times
    exact Decimal.to_rat_injective (exact.trans reaches)
  · rcases neighbours_around formed nonneg before with ⟨one, other, neighbours, after, notYet⟩
    have ordered := neighbours.ordered formed
    have oneDigits := digits one neighbours.first_mem
    rw [graph_before_next formed neighbours after notYet] at reaches
    rw [eval_eq_value_on formed nonneg reached]
    rcases neighbours with ⟨index, oneAt, otherAt⟩
    rw [value_on_segment onLine (·.value) formed.increasing oneAt otherAt after notYet]
    exact on_line_exact ordered valueDigits oneDigits reaches

theorem graph_straight_ended (formed : WellFormed series.points) (nonneg : 0 ≤ start)
    (proper : start < stop) (apart : ∀ other ∈ times series.points, other ≤ start ∨ stop ≤ other)
    (ends : series.duration < stop → series.eval series.duration = 0) :
    Straight series.graph start stop := by
  by_cases reached : stop ≤ series.duration
  · exact graph_straight formed nonneg proper reached apart
  · have before : series.duration ≤ start :=
      (apart _ formed.duration_mem_times).resolve_right reached
    have last : series.graph series.duration = 0 := by
      have exact := exact_at_breakpoint formed formed.duration_mem_times
      have final : (series.eval series.duration).toRat = series.graph series.duration := exact
      rw [← final, ends (not_le.1 reached), Decimal.to_rat_zero]
    have ended : ∀ time, start ≤ time → time ≤ stop → series.graph time = 0 := by
      intro time after _
      rcases (before.trans after).eq_or_lt with same | later
      · rw [← same, last]
      · exact graph_outside (.inr later)
    exact straight_level ended

theorem graph_plus (firstFormed : WellFormed first.points) (secondFormed : WellFormed second.points)
    {sum : LinearSeries} (adds : first.plus second = .ok sum)
    (firstExact : ∀ time ∈ times sum.points, first.ExactAt time)
    (secondExact : ∀ time ∈ times sum.points, second.ExactAt time) (time : Decimal) :
    sum.graph time = first.graph time + second.graph time := by
  have firstSpans := spans_of_formed firstFormed
  have secondSpans := spans_of_formed secondFormed
  rcases (plus_ok_iff firstSpans secondSpans sum).1 adds with ⟨⟨firstEnds, secondEnds⟩, same⟩
  have spans := plus_spans firstSpans secondSpans
  have sameTimes := congrArg (fun series => times series.points) same
  rw [times_merged] at sameTimes
  rw [← same] at spans
  rw [sameTimes] at firstExact secondExact
  by_cases outside : time < 0 ∨ max first.duration second.duration < time
  · have ended : ∀ operand : LinearSeries,
        operand.duration ≤ max first.duration second.duration → operand.graph time = 0 :=
      fun operand shorter => graph_outside (outside.imp_right shorter.trans_lt)
    rw [graph_outside (by rwa [spans.lasts]), ended _ (le_max_left _ _), ended _ (le_max_right _ _),
      add_zero]
  · rw [not_or, not_lt, not_lt, ← spans.lasts] at outside
    refine (eq_graph spans.formed (f := fun time => first.graph time + second.graph time) ?_ ?_
      outside.1 outside.2).symm
    · intro point member
      rw [same] at member
      rcases List.mem_map.1 member with ⟨moment, momentMember, rfl⟩
      rw [Decimal.to_rat_add, firstExact moment momentMember, secondExact moment momentMember]
    · intro start startMember stop stopMember proper apart
      have nonneg := time_nonneg_of_mem spans.formed startMember
      have reached : stop ≤ max first.duration second.duration := by
        rw [← spans.lasts]
        exact last_time_le spans.formed stopMember
      rw [sameTimes] at apart
      rw [le_max_iff] at reached
      apply Straight.add
      · apply graph_straight_ended firstFormed nonneg proper
        · exact fun other member => apart other ((mem_union _ _ _).2 (.inl member))
        · intro ended
          exact firstEnds (ended.trans_le (reached.resolve_left (not_le.2 ended)))
      · apply graph_straight_ended secondFormed nonneg proper
        · exact fun other member => apart other ((mem_union _ _ _).2 (.inr member))
        · intro ended
          exact secondEnds (ended.trans_le (reached.resolve_right (not_le.2 ended)))

theorem graph_slice (formed : WellFormed series.points) {part : LinearSeries}
    (sliced : series.slice start stop = .ok part) (startExact : series.ExactAt start)
    (stopExact : series.ExactAt stop) (nonneg : 0 ≤ time) (reached : time ≤ stop - start) :
    part.graph time = series.graph (time + start) := by
  have spans := slice_spans formed sliced
  have partFormed := spans.formed
  rw [← spans.lasts] at reached
  rcases (slice_ok_iff start stop).1 sliced with ⟨⟨startNonneg, ordered, inside⟩, same⟩
  refine (eq_graph partFormed (f := fun time => series.graph (time + start)) ?_ ?_ nonneg
    reached).symm
  · intro point member
    rw [same] at member
    rcases (mem_cut_out formed _ _ _ _ _).1 member with
      rfl | ⟨original, originalMember, _, _, rfl⟩ | ⟨_, rfl⟩
    · rw [zero_add]
      exact startExact.symm
    · rw [Breakpoint.shift, neg_add_cancel_right]
      exact graph_of_mem formed originalMember
    · rw [sub_add_cancel]
      exact stopExact.symm
  · intro first firstMember last lastMember proper apart
    have firstNonneg := time_nonneg_of_mem partFormed firstMember
    have lastReached : last ≤ stop - start := by
      rw [← spans.lasts]
      exact last_time_le partFormed lastMember
    have kept : ∀ moment, 0 ≤ moment → moment ≤ stop - start →
        moment + start ∈ times series.points → moment ∈ times part.points := by
      rw [same]
      exact fun _ => mem_times_cut_out formed
    have moved : Straight series.graph (first + start) (last + start) := by
      apply graph_straight formed
      · exact add_nonneg firstNonneg startNonneg
      · exact add_lt_add_left proper start
      · exact (le_sub_iff_add_le.1 lastReached).trans inside
      · intro other otherMember
        by_contra between
        rw [not_or, not_le, not_le] at between
        have early : first < other - start := lt_sub_iff_add_lt.2 between.1
        have late : other - start < last := sub_lt_iff_lt_add.2 between.2
        have inPart := kept (other - start) (firstNonneg.trans early.le)
          (late.le.trans lastReached) (by rwa [sub_add_cancel])
        rcases apart _ inPart with before | after
        · exact absurd early (not_lt.2 before)
        · exact absurd late (not_lt.2 after)
    simpa only [add_sub_cancel_right] using moved.shift start

theorem graph_followed_by (firstLasts : Lasts first) (secondLasts : Lasts second)
    (meets : Meet first second) (time : Decimal) :
    (first.followedBy second).graph time =
      if time ≤ first.duration then first.graph time
      else second.graph (time - first.duration) := by
  have spans := followed_by_spans firstLasts secondLasts
  have formed := spans.formed
  have met : first.graph first.duration = second.graph 0 := by
    have firstExact := exact_at_breakpoint firstLasts.formed firstLasts.formed.duration_mem_times
    have secondExact := exact_at_breakpoint secondLasts.formed secondLasts.formed.zero_mem_times
    exact firstExact.symm.trans ((congrArg Decimal.toRat meets).trans secondExact)
  by_cases outside : time < 0 ∨ first.duration + second.duration < time
  · rw [graph_outside (by rwa [spans.lasts])]
    split_ifs with early
    · refine (graph_outside (outside.imp_right fun late => ?_)).symm
      exact (lt_add_of_pos_right _ secondLasts.positive).trans late
    · refine (graph_outside (.inr ?_)).symm
      have late := outside.resolve_left (not_lt.2 (firstLasts.positive.le.trans (not_le.1 early).le))
      exact lt_sub_iff_add_lt'.2 late
  · rw [not_or, not_lt, not_lt] at outside
    have behind : ∀ moment, first.duration ≤ moment →
        (if moment ≤ first.duration then first.graph moment
          else second.graph (moment - first.duration)) = second.graph (moment - first.duration) := by
      intro moment late
      rcases late.eq_or_lt with same | later
      · rw [← same, if_pos le_rfl, sub_self, met]
      · rw [if_neg (not_le.2 later)]
    rw [← spans.lasts] at outside
    refine (eq_graph formed (f := fun time => if time ≤ first.duration then first.graph time
      else second.graph (time - first.duration)) ?_ ?_ outside.1 outside.2).symm
    · intro point member
      rw [followed_by_points firstLasts.formed secondLasts.formed meets] at member
      rcases List.mem_append.1 member with early | late
      · have inFirst : point.time ≤ first.duration := firstLasts.formed.time_le_duration early
        rw [if_pos inFirst, graph_of_mem firstLasts.formed early]
      · rcases List.mem_map.1 late with ⟨original, tailMember, rfl⟩
        have originalMember := List.mem_of_mem_tail tailMember
        have nonneg := secondLasts.formed.time_nonneg originalMember
        have moved : (original.shift first.duration).time = original.time + first.duration := rfl
        rw [moved, behind _ (le_add_of_nonneg_left nonneg), add_sub_cancel_right,
          graph_of_mem secondLasts.formed originalMember]
        rfl
    · intro start startMember stop stopMember proper apart
      have nonneg := time_nonneg_of_mem formed startMember
      have reached : stop ≤ first.duration + second.duration := by
        rw [← spans.lasts]
        exact last_time_le formed stopMember
      have inWhole := mem_times_joined firstLasts.formed secondLasts.formed
      rcases apart first.duration ((inWhole _).2 (.inl firstLasts.formed.duration_mem_times)) with
        late | early
      · have moved : Straight second.graph (start - first.duration) (stop - first.duration) := by
          apply graph_straight secondLasts.formed (sub_nonneg.2 late)
          · exact sub_lt_sub_right proper _
          · exact sub_le_iff_le_add'.2 reached
          · intro other member
            have shifted := apart _ ((inWhole _).2 (.inr ⟨other, member, rfl⟩))
            exact shifted.imp le_sub_iff_add_le.2 sub_le_iff_le_add.2
        have back := moved.shift (-first.duration)
        rw [sub_neg_eq_add, sub_neg_eq_add, sub_add_cancel, sub_add_cancel] at back
        apply back.congr
        intro moment after _
        rw [← sub_eq_add_neg]
        exact behind moment (late.trans after)
      · have own := graph_straight firstLasts.formed nonneg proper early fun other member =>
          apart other ((inWhole _).2 (.inl member))
        apply own.congr
        intro moment _ before
        exact if_pos (before.trans early)

end Analog.LinearSeries
