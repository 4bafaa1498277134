import Analog.Proofs.RedrawnWaveforms

/-!
# Sums and slices that are drawn anew

Where the values that a sum or a slice looks at are exact, so are those that its simplified form
looks at. A factor can be taken out of a sum if its operands last equally long or the factor is not
zero, and a slice can be moved below scales and negations.
-/

set_option autoImplicit false

namespace Analog.Canonical

open Waveform LinearSeries Breakpoints

variable [Natives] {interpolated : Bool} {bindings : ScalarBindings}
  {left right left' right' given result inner inner' : Waveform}

/-- The parts of a sum that is plotted. -/
structure Adds (interpolated : Bool) (bindings : ScalarBindings) (left right : Waveform)
    (leftSeries rightSeries sum : LinearSeries) : Prop where
  leftPlots : Plots interpolated bindings left leftSeries
  rightPlots : Plots interpolated bindings right rightSeries
  adds : leftSeries.plus rightSeries = .ok sum
  addable : Addable leftSeries rightSeries
  shown : ∀ time ∈ times sum.points, ∃ shown, Shows bindings (.add left right) time shown

namespace Adds

variable {leftSeries rightSeries sum : LinearSeries}

theorem plots (parts : Adds true bindings left right leftSeries rightSeries sum) :
    Plots true bindings (.add left right) sum :=
  ⟨rfl, leftSeries, rightSeries, parts.leftPlots, parts.rightPlots, parts.adds, parts.addable,
    parts.shown⟩

theorem ends_and_points (parts : Adds interpolated bindings left right leftSeries rightSeries sum) :
    ((leftSeries.duration < rightSeries.duration → leftSeries.eval leftSeries.duration = 0) ∧
      (rightSeries.duration < leftSeries.duration → rightSeries.eval rightSeries.duration = 0)) ∧
    sum = ⟨merged leftSeries.points rightSeries.points fun time =>
      leftSeries.eval time + rightSeries.eval time⟩ :=
  (plus_ok_iff (spans_of_formed parts.leftPlots.lasts.formed)
    (spans_of_formed parts.rightPlots.lasts.formed) sum).1 parts.adds

theorem mem_times_iff (parts : Adds interpolated bindings left right leftSeries rightSeries sum)
    (time : Decimal) :
    time ∈ times sum.points ↔ time ∈ times leftSeries.points ∨ time ∈ times rightSeries.points := by
  rw [parts.ends_and_points.2, times_merged]
  exact mem_union _ _ _

theorem lasts (parts : Adds interpolated bindings left right leftSeries rightSeries sum) :
    sum.duration = max leftSeries.duration rightSeries.duration := by
  rw [parts.ends_and_points.2]
  exact duration_merged parts.leftPlots.lasts.formed parts.rightPlots.lasts.formed _

theorem graph (parts : Adds interpolated bindings left right leftSeries rightSeries sum)
    (time : Decimal) : sum.graph time = leftSeries.graph time + rightSeries.graph time := by
  have leftFormed := parts.leftPlots.lasts.formed
  have rightFormed := parts.rightPlots.lasts.formed
  have exact := exact_in_sum parts.leftPlots.reaches parts.rightPlots.reaches leftFormed rightFormed
    parts.adds parts.shown
  exact graph_plus leftFormed rightFormed parts.adds (fun moment member => (exact moment member).1)
    (fun moment member => (exact moment member).2) time

end Adds

theorem adds_of_plots {sum : LinearSeries}
    (plots : Plots interpolated bindings (.add left right) sum) :
    interpolated = true ∧ ∃ leftSeries rightSeries,
      Adds interpolated bindings left right leftSeries rightSeries sum := by
  rcases plots with ⟨isTrue, leftSeries, rightSeries, leftPlots, rightPlots, adds, addable, shown⟩
  exact ⟨isTrue, leftSeries, rightSeries, leftPlots, rightPlots, adds, addable, shown⟩

/-- What a sum is redrawn as is the sum of its series, with breakpoints of theirs. -/
theorem sum_redraws
    (appears : interpolated = true → ∀ leftSeries rightSeries sum,
      Adds true bindings left right leftSeries rightSeries sum →
      ∃ kept, Plots true bindings result kept ∧ Straightens sum kept ∧
        ShowsToo bindings (.add left right) result) :
    Redraws interpolated bindings (.add left right) result := by
  intro sum plots
  rcases adds_of_plots plots with ⟨rfl, leftSeries, rightSeries, parts⟩
  rcases appears rfl leftSeries rightSeries sum parts with ⟨kept, keptPlots, straightens, showsToo⟩
  exact ⟨kept, keptPlots, ⟨straightens, fun plain => absurd plain (by simp)⟩, showsToo⟩

theorem adds_of_ends {first second : LinearSeries} (firstPlots : Plots true bindings left first)
    (secondPlots : Plots true bindings right second)
    (firstEnds : first.duration < second.duration → first.eval first.duration = 0)
    (secondEnds : second.duration < first.duration → second.eval second.duration = 0)
    (addable : Addable first second)
    (shown : ∀ time, time ∈ times first.points ∨ time ∈ times second.points → ∃ shown,
      Shows bindings (.add left right) time shown) :
    ∃ sum, Adds true bindings left right first second sum := by
  have adds := (plus_ok_iff (spans_of_formed firstPlots.lasts.formed)
    (spans_of_formed secondPlots.lasts.formed) _).2 ⟨⟨firstEnds, secondEnds⟩, rfl⟩
  refine ⟨_, firstPlots, secondPlots, adds, addable, fun time member => shown time ?_⟩
  rw [times_merged] at member
  exact (mem_union _ _ _).1 member

theorem add_redraws (leftRedraws : Redraws interpolated bindings left left')
    (rightRedraws : Redraws interpolated bindings right right') :
    Redraws interpolated bindings (.add left right) (.add left' right') := by
  apply sum_redraws
  intro isTrue leftSeries rightSeries sum parts
  subst isTrue
  rcases leftRedraws leftSeries parts.leftPlots with ⟨first, firstPlots, ⟨firstKeeps, _⟩, firstShows⟩
  rcases rightRedraws rightSeries parts.rightPlots with
    ⟨second, secondPlots, ⟨secondKeeps, _⟩, secondShows⟩
  have ends := parts.ends_and_points.1
  rw [← firstKeeps.eval_stop parts.leftPlots.lasts.formed firstPlots.lasts.formed,
    ← secondKeeps.eval_stop parts.rightPlots.lasts.formed secondPlots.lasts.formed,
    ← firstKeeps.lasts, ← secondKeeps.lasts] at ends
  have addable : Addable first second := by
    unfold Addable
    simp only [firstKeeps.lasts, secondKeeps.lasts, firstKeeps.graph, secondKeeps.graph]
    exact parts.addable
  have showsToo : ShowsToo bindings (.add left right) (.add left' right') := by
    rintro time nonneg _ ⟨one, other, oneAppears, otherAppears, rfl⟩
    exact ⟨one, other, firstShows time nonneg one oneAppears,
      secondShows time nonneg other otherAppears, rfl⟩
  have subset : ∀ time, time ∈ times first.points ∨ time ∈ times second.points →
      time ∈ times sum.points := by
    intro time member
    rw [parts.mem_times_iff]
    exact member.imp (fun inFirst => firstKeeps.times inFirst)
      fun inSecond => secondKeeps.times inSecond
  have shown : ∀ time, time ∈ times first.points ∨ time ∈ times second.points → ∃ shown,
      Shows bindings (.add left' right') time shown := by
    intro time member
    have inSum := subset time member
    rcases parts.shown time inSum with ⟨shown, appears⟩
    exact ⟨shown, showsToo time (time_nonneg_of_mem parts.plots.lasts.formed inSum) shown appears⟩
  rcases adds_of_ends firstPlots secondPlots ends.1 ends.2 addable shown with ⟨kept, keptParts⟩
  refine ⟨kept, keptParts.plots, ⟨?_, fun time member => ?_, fun time => ?_⟩, showsToo⟩
  · rw [keptParts.lasts, parts.lasts, firstKeeps.lasts, secondKeeps.lasts]
  · exact subset time ((keptParts.mem_times_iff time).1 member)
  · rw [keptParts.graph, parts.graph, firstKeeps.graph, secondKeeps.graph]

theorem gather_redraws {factor factor' both : Scalar} {number number' : Decimal}
    (factorMeans : Scalar.Means bindings factor number)
    (factorMeans' : Scalar.Means bindings factor' number')
    (bothMeans : Scalar.Means bindings both (number + number')) :
    Redraws interpolated bindings (.add (.scale factor inner) (.scale factor' inner))
      (.scale both inner) := by
  apply sum_redraws
  intro _ leftSeries rightSeries sum parts
  rcases (scale_plots_iff _ factorMeans).1 parts.leftPlots with ⟨series, innerPlots, leftSame⟩
  rcases (scale_plots_iff _ factorMeans').1 parts.rightPlots with ⟨series', innerPlots', rightSame⟩
  have same := lowers_unique innerPlots'.lowers innerPlots.lowers
  subst same
  refine ⟨_, (scale_plots_iff _ bothMeans).2 ⟨series', innerPlots, rfl⟩, ⟨?_, ?_, ?_⟩, ?_⟩
  · rw [parts.lasts, leftSame, rightSame, duration_map, duration_map, duration_map, max_self]
  · intro time member
    rw [times_map] at member
    rw [parts.mem_times_iff, leftSame, times_map]
    exact .inl member
  · intro time
    rw [parts.graph, leftSame, rightSame, graph_map, graph_map, graph_map, Decimal.to_rat_add]
    ring
  · intro time nonneg shown appears
    have short := appears.short
    rcases appears with ⟨_, _, leftAppears, rightAppears, rfl⟩
    rcases (scale_shows_iff factorMeans.evaluates _ _ _).1 leftAppears with
      ⟨one, oneAppears, rfl, _⟩
    rcases (scale_shows_iff factorMeans'.evaluates _ _ _).1 rightAppears with
      ⟨other, otherAppears, rfl, _⟩
    have equal : one = other := by
      have oneValue := innerPlots.reaches time nonneg one oneAppears
      have otherValue := innerPlots.reaches time nonneg other otherAppears
      exact Decimal.to_rat_injective (oneValue.symm.trans otherValue)
    subst equal
    exact (scale_shows_iff bothMeans.evaluates _ _ _).2
      ⟨one, oneAppears, (add_mul _ _ _).symm, short⟩

/-- A common factor is taken out. Where it is zero, the operands last equally long. -/
theorem factor_redraws {factor factor' : Scalar} {number : Decimal}
    (factorMeans : Scalar.Means bindings factor number)
    (factorMeans' : Scalar.Means bindings factor' number) :
    Redraws interpolated bindings (.add (.scale factor left) (.scale factor' right))
      (.scale factor (.add left right)) := by
  apply sum_redraws
  intro _ leftSeries rightSeries sum parts
  have addable := parts.addable
  have ends := parts.ends_and_points.1
  have inSum := parts.mem_times_iff
  have value := parts.graph
  have lasts := parts.lasts
  rcases (scale_plots_iff _ factorMeans).1 parts.leftPlots with ⟨first, firstPlots, rfl⟩
  rcases (scale_plots_iff _ factorMeans').1 parts.rightPlots with ⟨second, secondPlots, rfl⟩
  have firstLasts := firstPlots.lasts
  have secondLasts := secondPlots.lasts
  simp only [Addable, graph_map, duration_map] at addable
  simp only [duration_map, times_map, graph_map] at ends inSum value lasts
  have showsInside : ∀ time shown, Shows bindings (.add (.scale factor left) (.scale factor' right))
      time shown → ∃ innerShown, Shows bindings (.add left right) time innerShown ∧
        shown = number * innerShown := by
    rintro time _ ⟨_, _, leftAppears, rightAppears, rfl⟩
    rcases (scale_shows_iff factorMeans.evaluates _ _ _).1 leftAppears with
      ⟨one, oneAppears, rfl, _⟩
    rcases (scale_shows_iff factorMeans'.evaluates _ _ _).1 rightAppears with
      ⟨other, otherAppears, rfl, _⟩
    exact ⟨one + other, ⟨one, other, oneAppears, otherAppears, rfl⟩, (mul_add _ _ _).symm⟩
  have ends_of_scaled : ∀ series : LinearSeries, Lasts series → number ≠ 0 →
      (series.map (number * ·)).eval series.duration = 0 → series.eval series.duration = 0 := by
    intro series seriesLasts nonzero ended
    have spans := map_spans (number * ·) (spans_of_formed seriesLasts.formed)
    rw [spans.eval_stop] at ended
    exact (mul_eq_zero.1 ended).resolve_left nonzero
  have nonzero : first.duration ≠ second.duration → number ≠ 0 := by
    rintro different rfl
    rcases addable with same | ⟨time, one | other⟩
    · exact different same
    · exact one (by rw [Decimal.to_rat_zero, zero_mul])
    · exact other (by rw [Decimal.to_rat_zero, zero_mul])
  have innerAddable : Addable first second := by
    refine addable.imp_right fun some => ?_
    rcases some with ⟨time, some⟩
    exact ⟨time, some.imp right_ne_zero_of_mul right_ne_zero_of_mul⟩
  have shown : ∀ time, time ∈ times first.points ∨ time ∈ times second.points → ∃ shown,
      Shows bindings (.add left right) time shown := by
    intro time member
    rcases parts.shown time ((inSum time).2 member) with ⟨shown, appears⟩
    rcases showsInside time shown appears with ⟨innerShown, innerAppears, _⟩
    exact ⟨innerShown, innerAppears⟩
  have firstEnds : first.duration < second.duration → first.eval first.duration = 0 :=
    fun shorter => ends_of_scaled first firstLasts (nonzero shorter.ne) (ends.1 shorter)
  have secondEnds : second.duration < first.duration → second.eval second.duration = 0 :=
    fun shorter => ends_of_scaled second secondLasts (nonzero shorter.ne') (ends.2 shorter)
  rcases adds_of_ends firstPlots secondPlots firstEnds secondEnds innerAddable shown with
    ⟨inside, innerParts⟩
  refine ⟨_, (scale_plots_iff _ factorMeans).2 ⟨inside, innerParts.plots, rfl⟩, ⟨?_, ?_, ?_⟩, ?_⟩
  · rw [duration_map, innerParts.lasts, lasts]
  · intro time member
    rw [times_map] at member
    exact (inSum time).2 ((innerParts.mem_times_iff time).1 member)
  · intro time
    rw [graph_map, innerParts.graph, value, mul_add]
  · intro time _ shown appears
    rcases showsInside time shown appears with ⟨innerShown, innerAppears, same⟩
    exact (scale_shows_iff factorMeans.evaluates _ _ _).2
      ⟨innerShown, innerAppears, same, appears.short⟩

/-- A zero that does not outlast the other operand adds nothing. -/
theorem zero_sum_redraws {value length : Scalar} {extent : Decimal} {meaning : Signal}
    (valueMeans : Scalar.Means bindings value 0) (lengthMeans : Scalar.Means bindings length extent)
    (means : Waveform.Means bindings right meaning) (shorter : extent ≤ meaning.duration) :
    Redraws interpolated bindings (.add (.constant value length) right) right := by
  apply sum_redraws
  intro _ leftSeries rightSeries sum parts
  have leftReaches := parts.leftPlots.reaches
  have lasts := parts.rightPlots.duration_eq means
  rcases (constant_plots_iff _ valueMeans lengthMeans).1 parts.leftPlots with ⟨positive, leftSame⟩
  have leftLasts := parts.leftPlots.lasts
  have level : Level leftSeries 0 := by
    rw [leftSame]
    exact line_is_level _ _
  have nothing := graph_of_zero_level leftLasts.formed level
  refine ⟨rightSeries, parts.rightPlots, ⟨?_, ?_, ?_⟩, ?_⟩
  · rw [parts.lasts, leftSame, (line_spans positive.le).lasts, lasts, max_eq_right shorter]
  · exact fun time member => (parts.mem_times_iff time).2 (.inr member)
  · intro time
    rw [parts.graph, nothing, zero_add]
  · rintro time nonneg _ ⟨one, other, oneAppears, otherAppears, rfl⟩
    have zero := leftReaches time nonneg one oneAppears
    rw [nothing, ← Decimal.to_rat_zero] at zero
    rwa [← Decimal.to_rat_injective zero, zero_add]

theorem constant_sum_redraws {value length value' length' : Scalar} {number number' extent : Decimal}
    (valueMeans : Scalar.Means bindings value number)
    (lengthMeans : Scalar.Means bindings length extent)
    (valueMeans' : Scalar.Means bindings value' number')
    (lengthMeans' : Scalar.Means bindings length' extent) :
    Redraws interpolated bindings (.add (.constant value length) (.constant value' length'))
      (.constant (Canonical.sum value value') length) := by
  apply redraws_to_constant (sum_means valueMeans valueMeans') lengthMeans
  intro series plots
  rcases adds_of_plots plots with ⟨_, leftSeries, rightSeries, parts⟩
  rcases (constant_plots_iff _ valueMeans lengthMeans).1 parts.leftPlots with ⟨positive, leftSame⟩
  rcases (constant_plots_iff _ valueMeans' lengthMeans').1 parts.rightPlots with ⟨_, rightSame⟩
  have formed := plots.lasts.formed
  rcases graph_of_constant positive leftSame with ⟨leftLasts, leftValue⟩
  rcases graph_of_constant positive rightSame with ⟨rightLasts, rightValue⟩
  have lasts : series.duration = extent := by
    rw [parts.lasts, leftLasts, rightLasts, max_self]
  apply keeps_level plots.lasts lasts
  intro point member
  have nonneg := formed.time_nonneg member
  have reached : point.time ≤ extent := by
    rw [← lasts]
    exact formed.time_le_duration member
  have value := parts.graph point.time
  rw [graph_of_mem formed member, leftValue _ nonneg reached, rightValue _ nonneg reached,
    ← Decimal.to_rat_add] at value
  exact Decimal.to_rat_injective value

theorem redundant_sum_redraws {meaning : Signal} (redundant : Redundant bindings left meaning)
    (means : Waveform.Means bindings right meaning) :
    Redraws interpolated bindings (.add left right) right := by
  rcases redundant with ⟨value, length, extent, rfl, valueMeans, lengthMeans, shorter⟩
  exact zero_sum_redraws valueMeans lengthMeans means shorter

theorem swap_redraws : Redraws interpolated bindings (.add left right) (.add right left) := by
  apply sum_redraws
  intro _ leftSeries rightSeries sum parts
  have ends := parts.ends_and_points.1
  have addable : Addable rightSeries leftSeries :=
    parts.addable.imp Eq.symm fun some => some.imp fun _ => Or.symm
  have showsToo : ShowsToo bindings (.add left right) (.add right left) := by
    rintro time _ _ ⟨one, other, oneAppears, otherAppears, rfl⟩
    exact ⟨other, one, otherAppears, oneAppears, add_comm _ _⟩
  have shown : ∀ time, time ∈ times rightSeries.points ∨ time ∈ times leftSeries.points → ∃ shown,
      Shows bindings (.add right left) time shown := by
    intro time member
    have inSum := (parts.mem_times_iff time).2 member.symm
    rcases parts.shown time inSum with ⟨shown, appears⟩
    exact ⟨shown, showsToo time (time_nonneg_of_mem parts.plots.lasts.formed inSum) shown appears⟩
  rcases adds_of_ends parts.rightPlots parts.leftPlots ends.2 ends.1 addable shown with
    ⟨kept, keptParts⟩
  refine ⟨kept, keptParts.plots, ⟨?_, fun time member => ?_, fun time => ?_⟩, showsToo⟩
  · rw [keptParts.lasts, parts.lasts, max_comm]
  · exact (parts.mem_times_iff time).2 ((keptParts.mem_times_iff time).1 member).symm
  · rw [keptParts.graph, parts.graph, add_comm]

/-- A slice that is plotted, with its cuts. -/
structure Cuts (bindings : ScalarBindings) (inner : Waveform) (lower upper : Decimal)
    (series part : LinearSeries) : Prop where
  plots : Plots true bindings inner series
  proper : lower < upper
  sliced : series.slice lower upper = .ok part
  shown : ∀ time ∈ lower :: upper :: times series.points, ∃ shown, Shows bindings inner time shown

section Cuts

variable {lower upper extent : Decimal} {interval interval' : Interval}
  {series part : LinearSeries}

namespace Cuts

theorem inside (cuts : Cuts bindings inner lower upper series part) :
    0 ≤ lower ∧ upper ≤ series.duration := by
  rcases ((slice_ok_iff lower upper).1 cuts.sliced).1 with ⟨nonneg, _, reached⟩
  exact ⟨nonneg, reached⟩

theorem spans (cuts : Cuts bindings inner lower upper series part) :
    Spans part (upper - lower) (series.eval lower) (series.eval upper) :=
  slice_spans cuts.plots.lasts.formed cuts.sliced

theorem mem_times_iff (cuts : Cuts bindings inner lower upper series part) (time : Decimal) :
    time ∈ times part.points ↔ time = 0 ∨
      (0 < time ∧ time < upper - lower ∧ time + lower ∈ times series.points) ∨
      time = upper - lower := by
  have formed := cuts.plots.lasts.formed
  rw [((slice_ok_iff lower upper).1 cuts.sliced).2]
  constructor
  · intro member
    rcases List.mem_map.1 member with ⟨point, pointMember, rfl⟩
    rcases (mem_cut_out formed _ _ _ _ _).1 pointMember with
      rfl | ⟨original, originalMember, after, before, rfl⟩ | ⟨_, rfl⟩
    · exact .inl rfl
    · right
      left
      simp only [Breakpoint.shift, ← sub_eq_add_neg, sub_add_cancel]
      exact ⟨sub_pos.2 after, sub_lt_sub_right before _, List.mem_map_of_mem originalMember⟩
    · exact .inr (.inr rfl)
  · rintro (rfl | ⟨after, before, member⟩ | rfl)
    · exact List.mem_map_of_mem ((mem_cut_out formed _ _ _ _ _).2 (.inl rfl))
    · exact mem_times_cut_out formed after.le before.le member
    · exact List.mem_map_of_mem ((mem_cut_out formed _ _ _ _ _).2 (.inr (.inr ⟨cuts.proper, rfl⟩)))

theorem graph (cuts : Cuts bindings inner lower upper series part) (time : Decimal) :
    part.graph time =
      if time < 0 ∨ upper - lower < time then 0 else series.graph (time + lower) := by
  have formed := cuts.plots.lasts.formed
  have exact := exact_at_cuts cuts.plots.reaches formed cuts.sliced cuts.shown
  split_ifs with outside
  · exact graph_outside (by rwa [cuts.spans.lasts])
  · rw [not_or, not_lt, not_lt] at outside
    exact graph_slice formed cuts.sliced exact.1 exact.2 outside.1 outside.2

end Cuts

theorem cuts_of_shown (plots : Plots true bindings inner series) (nonneg : 0 ≤ lower)
    (proper : lower < upper) (reached : upper ≤ series.duration)
    (shown : ∀ time ∈ lower :: upper :: times series.points, ∃ shown,
      Shows bindings inner time shown) : ∃ part, Cuts bindings inner lower upper series part :=
  ⟨_, plots, proper, (slice_ok_iff lower upper).2 ⟨⟨nonneg, proper.le, reached⟩, rfl⟩, shown⟩

omit [Natives] in
theorem slice_bounds_of_cuts (cutsOut : CutsOut bindings interval extent lower upper)
    (subject : Unit → String) :
    sliceBounds bindings subject interval extent = .ok (lower, upper) := by
  rcases cutsOut.values with ⟨start, stop, startMeans, stopMeans, lowerSame, upperSame⟩
  exact (slice_bounds_ok_iff _ _ _ _ _ _).2 ⟨start, stop,
    ((Scalar.bound_means_iff _ _).1 startMeans).2.2, ((Scalar.bound_means_iff _ _).1 stopMeans).2.2,
    lowerSame, upperSame, cutsOut.nonneg, cutsOut.ordered, cutsOut.reached⟩

theorem Cuts.whole (cuts : Cuts bindings inner lower upper series part)
    (cutsOut : CutsOut bindings interval series.duration lower upper) :
    Plots true bindings (.slice inner interval) part :=
  ⟨rfl, series, lower, upper, cuts.plots, slice_bounds_of_cuts cutsOut _, cuts.proper, cuts.sliced,
    cuts.shown⟩

theorem slice_shows_iff (cutsOut : CutsOut bindings interval extent lower upper)
    (lasts : inner.duration bindings = .ok extent) (time shown : Decimal) :
    Shows bindings (.slice inner interval) time shown ↔
      if time ≤ upper - lower then Shows bindings inner (time + lower) shown else shown = 0 := by
  rw [Shows, lasts]
  simp [slice_bounds_of_cuts cutsOut]

theorem cuts_of_plots (cutsOut : CutsOut bindings interval extent lower upper)
    (lasts : inner.duration bindings = .ok extent)
    (plots : Plots interpolated bindings (.slice inner interval) part) :
    interpolated = true ∧
      ∃ series, Cuts bindings inner lower upper series part ∧ series.duration = extent := by
  rcases plots with ⟨rfl, series, lower', upper', innerPlots, bounds, proper, sliced, shown⟩
  have sameExtent : series.duration = extent := by
    have known := innerPlots.duration
    rw [lasts, Except.ok.injEq] at known
    exact known.symm
  rw [sameExtent, slice_bounds_of_cuts cutsOut, Except.ok.injEq, Prod.mk.injEq] at bounds
  rcases bounds with ⟨rfl, rfl⟩
  exact ⟨rfl, series, ⟨innerPlots, proper, sliced, shown⟩, sameExtent⟩

/-- What a slice is redrawn as is the part of the series, with breakpoints of that. -/
theorem slice_redraws_to (cutsOut : CutsOut bindings interval extent lower upper)
    (lasts : inner.duration bindings = .ok extent)
    (appears : interpolated = true → ∀ series part, Cuts bindings inner lower upper series part →
      series.duration = extent → ∃ kept, Plots true bindings result kept ∧ Straightens part kept ∧
        ShowsToo bindings (.slice inner interval) result) :
    Redraws interpolated bindings (.slice inner interval) result := by
  intro part plots
  rcases cuts_of_plots cutsOut lasts plots with ⟨rfl, series, cuts, sameExtent⟩
  rcases appears rfl series part cuts sameExtent with ⟨kept, keptPlots, straightens, showsToo⟩
  exact ⟨kept, keptPlots, ⟨straightens, fun plain => absurd plain (by simp)⟩, showsToo⟩

theorem slice_redraws (cutsOut : CutsOut bindings interval extent lower upper)
    (cutsOut' : CutsOut bindings interval' extent lower upper)
    (lasts : inner.duration bindings = .ok extent)
    (redraws : Redraws interpolated bindings inner inner') :
    Redraws interpolated bindings (.slice inner interval) (.slice inner' interval') := by
  apply slice_redraws_to cutsOut lasts
  intro isTrue series part cuts sameExtent
  subst isTrue
  rcases redraws series cuts.plots with ⟨kept, keptPlots, ⟨keeps, _⟩, appears⟩
  have formed := cuts.plots.lasts.formed
  rcases cuts.inside with ⟨nonneg, reached⟩
  have keptLasts : inner'.duration bindings = .ok extent := by
    rw [keptPlots.duration, keeps.lasts, sameExtent]
  have shown : ∀ time ∈ lower :: upper :: times kept.points, ∃ shown,
      Shows bindings inner' time shown := by
    intro time member
    have inGiven : time ∈ lower :: upper :: times series.points := by
      simp only [List.mem_cons] at member ⊢
      exact member.imp_right fun later => later.imp_right fun inside => keeps.times inside
    have timeNonneg : 0 ≤ time := by
      simp only [List.mem_cons] at inGiven
      rcases inGiven with rfl | rfl | inside
      · exact nonneg
      · exact nonneg.trans cuts.proper.le
      · exact time_nonneg_of_mem formed inside
    rcases cuts.shown time inGiven with ⟨shown, given⟩
    exact ⟨shown, appears time timeNonneg shown given⟩
  rcases cuts_of_shown keptPlots nonneg cuts.proper (keeps.lasts ▸ reached) shown with
    ⟨keptPart, keptCuts⟩
  have keptExtent : kept.duration = extent := keeps.lasts.trans sameExtent
  refine ⟨keptPart, keptCuts.whole (keptExtent ▸ cutsOut'), ⟨?_, fun time member => ?_, fun time => ?_⟩, ?_⟩
  · rw [keptCuts.spans.lasts, cuts.spans.lasts]
  · rw [keptCuts.mem_times_iff] at member
    rw [cuts.mem_times_iff]
    exact member.imp_right fun later => later.imp_left fun inside =>
      ⟨inside.1, inside.2.1, keeps.times inside.2.2⟩
  · rw [keptCuts.graph, cuts.graph, keeps.graph]
  · intro time timeNonneg shown given
    rw [slice_shows_iff cutsOut lasts] at given
    rw [slice_shows_iff cutsOut' keptLasts]
    split_ifs at given ⊢ with early
    · exact appears _ (add_nonneg timeNonneg nonneg) shown given
    · exact given

theorem slice_all_redraws (cutsOut : CutsOut bindings interval extent 0 extent)
    (lasts : given.duration bindings = .ok extent) :
    Redraws interpolated bindings (.slice given interval) given := by
  apply slice_redraws_to cutsOut lasts
  intro _ series part cuts sameExtent
  have formed := cuts.plots.lasts.formed
  refine ⟨series, cuts.plots, ⟨?_, fun time member => ?_, fun time => ?_⟩, ?_⟩
  · rw [cuts.spans.lasts, sub_zero, sameExtent]
  · have nonneg := time_nonneg_of_mem formed member
    have reached : time ≤ extent := by
      rw [← sameExtent]
      exact last_time_le formed member
    rw [cuts.mem_times_iff, sub_zero, add_zero]
    rcases nonneg.eq_or_lt with atStart | after
    · exact .inl atStart.symm
    · rcases reached.eq_or_lt with atEnd | before
      · exact .inr (.inr atEnd)
      · exact .inr (.inl ⟨after, before, member⟩)
  · rw [cuts.graph, sub_zero, add_zero, ← sameExtent]
    split_ifs with outside
    · exact graph_outside outside
    · rfl
  · intro time _ shown appears
    rw [slice_shows_iff cutsOut lasts, sub_zero, add_zero] at appears
    split_ifs at appears with early
    · exact appears
    · rw [appears]
      apply cuts.plots.shows_ended
      rw [sameExtent]
      exact not_le.1 early

/-- A slice of a scale is a scale of the slice: what is cut is known exactly before it is
multiplied. -/
theorem slice_scale_redraws {factor : Scalar} {number : Decimal}
    (factorMeans : Scalar.Means bindings factor number)
    (cutsOut : CutsOut bindings interval extent lower upper)
    (lasts : inner.duration bindings = .ok extent) :
    Redraws interpolated bindings (.slice (.scale factor inner) interval)
      (.scale factor (.slice inner interval)) := by
  have scaledLasts : (Waveform.scale factor inner).duration bindings = .ok extent := lasts
  apply slice_redraws_to cutsOut scaledLasts
  intro _ series part cuts sameExtent
  rcases cuts.inside with ⟨nonneg, reached⟩
  have value := cuts.graph
  have inPart := cuts.mem_times_iff
  rcases (scale_plots_iff _ factorMeans).1 cuts.plots with ⟨innerSeries, innerPlots, seriesSame⟩
  have shown : ∀ time ∈ lower :: upper :: times innerSeries.points, ∃ shown,
      Shows bindings inner time shown := by
    intro time member
    rcases cuts.shown time (by rwa [seriesSame, times_map]) with ⟨_, appears⟩
    rcases (scale_shows_iff factorMeans.evaluates _ _ _).1 appears with ⟨shown, innerAppears, _, _⟩
    exact ⟨shown, innerAppears⟩
  have innerExtent : innerSeries.duration = series.duration := by
    rw [seriesSame, duration_map]
  rcases cuts_of_shown innerPlots nonneg cuts.proper (innerExtent ▸ reached) shown with
    ⟨innerPart, innerCuts⟩
  have partPlots := innerCuts.whole ((innerExtent.trans sameExtent) ▸ cutsOut)
  refine ⟨_, (scale_plots_iff _ factorMeans).2 ⟨innerPart, partPlots, rfl⟩, ⟨?_, ?_, ?_⟩, ?_⟩
  · rw [duration_map, innerCuts.spans.lasts, cuts.spans.lasts]
  · intro time member
    rw [times_map, innerCuts.mem_times_iff] at member
    rw [inPart, seriesSame, times_map]
    exact member
  · intro time
    rw [graph_map, innerCuts.graph, value, seriesSame, graph_map]
    split_ifs
    · exact mul_zero _
    · rfl
  · intro time _ shown appears
    have short := appears.short
    rw [slice_shows_iff cutsOut scaledLasts] at appears
    simp only [scale_shows_iff factorMeans.evaluates, slice_shows_iff cutsOut lasts]
    split_ifs at appears ⊢ with early
    · exact (scale_shows_iff factorMeans.evaluates _ _ _).1 appears
    · exact ⟨0, rfl, by rw [appears, mul_zero], short⟩

theorem slice_negative_redraws (cutsOut : CutsOut bindings interval extent lower upper)
    (lasts : inner.duration bindings = .ok extent) :
    Redraws interpolated bindings (.slice (.negative inner) interval)
      (.negative (.slice inner interval)) := by
  have minusOne : Scalar.Means bindings (.literal (-1)) (-1) := Scalar.literal_means (-1)
  have negativeLasts : (Waveform.negative inner).duration bindings = .ok extent := lasts
  have scaled : Redraws interpolated bindings (.slice (.negative inner) interval)
      (.slice (.scale (.literal (-1)) inner) interval) :=
    slice_redraws cutsOut cutsOut negativeLasts (negative_scale_alike minusOne).1
  have outside : Redraws interpolated bindings (.slice (.scale (.literal (-1)) inner) interval)
      (.scale (.literal (-1)) (.slice inner interval)) :=
    slice_scale_redraws minusOne cutsOut lasts
  exact (scaled.trans outside).trans (negative_scale_alike minusOne).2

theorem slice_constant_redraws {value length length' : Scalar} {number : Decimal}
    (valueMeans : Scalar.Means bindings value number)
    (lengthMeans : Scalar.Means bindings length extent)
    (lengthMeans' : Scalar.Means bindings length' (upper - lower))
    (cutsOut : CutsOut bindings interval extent lower upper)
    (lasts : (Waveform.constant value length).duration bindings = .ok extent) :
    Redraws interpolated bindings (.slice (.constant value length) interval)
      (.constant value length') := by
  apply redraws_to_constant valueMeans lengthMeans'
  intro part plots
  rcases cuts_of_plots cutsOut lasts plots with ⟨_, series, cuts, sameExtent⟩
  rcases (constant_plots_iff _ valueMeans lengthMeans).1 cuts.plots with ⟨positive, same⟩
  rcases graph_of_constant positive same with ⟨_, values⟩
  rcases cuts.inside with ⟨nonneg, reached⟩
  rw [sameExtent] at reached
  apply keeps_level plots.lasts cuts.spans.lasts
  intro point member
  have pointNonneg := cuts.spans.formed.time_nonneg member
  have pointReached : point.time ≤ upper - lower := by
    rw [← cuts.spans.lasts]
    exact cuts.spans.formed.time_le_duration member
  have found := cuts.graph point.time
  rw [graph_of_mem cuts.spans.formed member,
    if_neg (not_or.2 ⟨not_lt.2 pointNonneg, not_lt.2 pointReached⟩),
    values _ (add_nonneg pointNonneg nonneg) ((le_sub_iff_add_le.1 pointReached).trans reached)]
    at found
  exact Decimal.to_rat_injective found

end Cuts

theorem all_same_redraws {parts parts' : List Waveform} {meanings meanings' : List Signal}
    (each : ∀ part ∈ parts, ∀ other meaning meaning', Waveform.Means bindings part meaning →
      Waveform.Means bindings other meaning' → part.same other = true →
      Redraws interpolated bindings part other ∧ Redraws interpolated bindings other part)
    (mean : List.Forall₂ (Waveform.Means bindings) parts meanings)
    (mean' : List.Forall₂ (Waveform.Means bindings) parts' meanings')
    (equal : sameAll parts parts' = true) :
    List.Forall₂ (Redraws interpolated bindings) parts parts' ∧
      List.Forall₂ (Redraws interpolated bindings) parts' parts := by
  induction mean generalizing parts' meanings' with
  | nil =>
      cases mean' with
      | nil => exact ⟨List.Forall₂.nil, List.Forall₂.nil⟩
      | cons _ _ => exact absurd equal (by simp [sameAll])
  | cons means _ ih =>
      cases mean' with
      | nil => exact absurd equal (by simp [sameAll])
      | cons means' rest' =>
          rw [sameAll, Bool.and_eq_true] at equal
          have first := each _ (by simp) _ _ _ means means' equal.1
          have others := ih (fun part member => each part (by simp [member])) rest' equal.2
          exact ⟨List.Forall₂.cons first.1 others.1, List.Forall₂.cons first.2 others.2⟩

theorem same_redraws (first second : Waveform) (meaning meaning' : Signal)
    (means : Waveform.Means bindings first meaning)
    (means' : Waveform.Means bindings second meaning') (equal : first.same second = true) :
    Redraws interpolated bindings first second ∧ Redraws interpolated bindings second first := by
  induction first using Waveform.parts_induction
    generalizing second meaning meaning' with
  | constant value duration =>
      cases second with
      | constant value' duration' =>
          rw [Waveform.same, Bool.and_eq_true] at equal
          rcases (Waveform.constant_means_iff _ _ _).1 means with
            ⟨_, _, valueMeans, durationMeans, _, _⟩
          rcases (Waveform.constant_means_iff _ _ _).1 means' with
            ⟨_, _, valueMeans', durationMeans', _, _⟩
          rw [← valueMeans.of_same valueMeans' equal.1] at valueMeans'
          rw [← durationMeans.of_same durationMeans' equal.2] at durationMeans'
          exact ⟨constant_redraws valueMeans durationMeans valueMeans' durationMeans',
            constant_redraws valueMeans' durationMeans' valueMeans durationMeans⟩
      | _ => exact absurd equal (by simp [Waveform.same])
  | ramp start stop duration =>
      cases second with
      | ramp start' stop' duration' =>
          rw [Waveform.same, Bool.and_eq_true, Bool.and_eq_true] at equal
          rcases (Waveform.ramp_means_iff _ _ _ _).1 means with
            ⟨_, _, _, startMeans, stopMeans, durationMeans, _, _⟩
          rcases (Waveform.ramp_means_iff _ _ _ _).1 means' with
            ⟨_, _, _, startMeans', stopMeans', durationMeans', _, _⟩
          rw [← startMeans.of_same startMeans' equal.1.1] at startMeans'
          rw [← stopMeans.of_same stopMeans' equal.1.2] at stopMeans'
          rw [← durationMeans.of_same durationMeans' equal.2] at durationMeans'
          apply leaf_alike
          · exact fun _ _ appears => appears
          · exact fun _ _ appears => appears
          · intro series
            rw [ramp_plots_iff _ startMeans stopMeans durationMeans,
              ramp_plots_iff _ startMeans' stopMeans' durationMeans']
      | _ => exact absurd equal (by simp [Waveform.same])
  | poly coefficients duration =>
      cases second with
      | poly coefficients' duration' =>
          rw [Waveform.same, Bool.and_eq_true] at equal
          rcases (Waveform.poly_means_iff _ _ _).1 means with ⟨_, _, mean, durationMeans, _, _⟩
          rcases (Waveform.poly_means_iff _ _ _).1 means' with ⟨_, _, mean', durationMeans', _, _⟩
          rw [← values_of_same equal.1 (known_of_means mean) (known_of_means mean')] at mean'
          rw [← durationMeans.of_same durationMeans' equal.2] at durationMeans'
          apply leaf_alike
          · exact fun _ _ appears => appears
          · exact fun _ _ appears => appears
          · intro series
            rw [poly_plots_iff _ mean durationMeans, poly_plots_iff _ mean' durationMeans']
      | _ => exact absurd equal (by simp [Waveform.same])
  | native name function duration parameters =>
      cases second with
      | native _ _ _ _ => exact ⟨fun _ plots => plots.elim, fun _ plots => plots.elim⟩
      | _ => exact absurd equal (by simp [Waveform.same])
  | negative inner ih =>
      cases second with
      | negative inner' =>
          rcases (Waveform.negative_means_iff _ _).1 means with ⟨_, innerMeans, _⟩
          rcases (Waveform.negative_means_iff _ _).1 means' with ⟨_, innerMeans', _⟩
          have alike := ih _ _ _ innerMeans innerMeans' equal
          exact ⟨negative_redraws alike.1, negative_redraws alike.2⟩
      | _ => exact absurd equal (by simp [Waveform.same])
  | add left right leftIh rightIh =>
      cases second with
      | add left' right' =>
          rw [Waveform.same, Bool.and_eq_true] at equal
          rcases (Waveform.add_means_iff _ _ _).1 means with ⟨_, _, leftMeans, rightMeans, _⟩
          rcases (Waveform.add_means_iff _ _ _).1 means' with ⟨_, _, leftMeans', rightMeans', _⟩
          have lefts := leftIh _ _ _ leftMeans leftMeans' equal.1
          have rights := rightIh _ _ _ rightMeans rightMeans' equal.2
          exact ⟨add_redraws lefts.1 rights.1, add_redraws lefts.2 rights.2⟩
      | _ => exact absurd equal (by simp [Waveform.same])
  | scale factor inner ih =>
      cases second with
      | scale factor' inner' =>
          rw [Waveform.same, Bool.and_eq_true] at equal
          rcases (Waveform.scale_means_iff _ _ _).1 means with ⟨_, _, factorMeans, innerMeans, _⟩
          rcases (Waveform.scale_means_iff _ _ _).1 means' with ⟨_, _, factorMeans', innerMeans', _⟩
          rw [← factorMeans.of_same factorMeans' equal.1] at factorMeans'
          have alike := ih _ _ _ innerMeans innerMeans' equal.2
          exact ⟨scale_redraws factorMeans factorMeans' alike.1,
            scale_redraws factorMeans' factorMeans alike.2⟩
      | _ => exact absurd equal (by simp [Waveform.same])
  | slice inner interval ih =>
      cases second with
      | slice inner' interval' =>
          rw [Waveform.same, Interval.same, Bool.and_eq_true, Bool.and_eq_true] at equal
          rcases (Waveform.slice_means_iff _ _ _).1 means with
            ⟨start, stop, innerMeaning, startMeans, stopMeans, innerMeans, ordered, _⟩
          rcases (Waveform.slice_means_iff _ _ _).1 means' with
            ⟨_, _, innerMeaning', startMeans', stopMeans', innerMeans', _, _⟩
          rw [← bound_of_same equal.1.1 startMeans startMeans'] at startMeans'
          rw [← bound_of_same equal.1.2 stopMeans stopMeans'] at stopMeans'
          have alike := ih _ _ _ innerMeans innerMeans' equal.2
          have lasts := duration_of_signal innerMeans.means
          have lasts' := duration_of_signal innerMeans'.means
          rw [(alike_of_same _ _ _ _ innerMeans innerMeans' equal.2).forth.lasts] at lasts'
          have cutsOut : CutsOut bindings interval innerMeaning.duration _ _ :=
            ⟨⟨start, stop, startMeans, stopMeans, rfl, rfl⟩, ordered.1, ordered.2.1, ordered.2.2⟩
          have cutsOut' : CutsOut bindings interval' innerMeaning.duration _ _ :=
            ⟨⟨start, stop, startMeans', stopMeans', rfl, rfl⟩, ordered.1, ordered.2.1, ordered.2.2⟩
          exact ⟨slice_redraws cutsOut cutsOut' lasts alike.1,
            slice_redraws cutsOut' cutsOut lasts' alike.2⟩
      | _ => exact absurd equal (by simp [Waveform.same])
  | append parts ih =>
      cases second with
      | append parts' =>
          rcases (Waveform.append_means_iff _ _).1 means with ⟨_, mean, _⟩
          rcases (Waveform.append_means_iff _ _).1 means' with ⟨_, mean', _⟩
          have each := all_same_redraws ih mean mean'
            equal
          exact ⟨append_redraws_each each.1, append_redraws_each each.2⟩
      | _ => exact absurd equal (by simp [Waveform.same])
  | record name inner side ih =>
      cases second with
      | record name' inner' side' =>
          rw [Waveform.same, Bool.and_eq_true] at equal
          rw [Waveform.record_means_iff] at means means'
          have alike := ih _ _ _ means means' equal.2
          exact alike
      | _ => exact absurd equal (by simp [Waveform.same])
  | sample inner step interpolation ih =>
      cases second with
      | sample inner' step' interpolation' =>
          rw [Waveform.same, Bool.and_eq_true, Bool.and_eq_true, beq_iff_eq] at equal
          rcases equal with ⟨⟨rfl, stepSame⟩, innerSame⟩
          rcases (Waveform.sample_means_iff _ _ _ _).1 means with
            ⟨number, _, stepMeans, innerMeans, _⟩
          rcases (Waveform.sample_means_iff _ _ _ _).1 means' with
            ⟨_, _, stepMeans', innerMeans', _⟩
          have alike := alike_of_same _ _ _ _ innerMeans innerMeans' innerSame
          rw [← stepMeans.of_same stepMeans' stepSame] at stepMeans'
          exact ⟨sample_redraws innerMeans innerMeans' alike.forth stepMeans stepMeans',
            sample_redraws innerMeans' innerMeans alike.back stepMeans' stepMeans⟩
      | _ => exact absurd equal (by simp [Waveform.same])
  | smooth inner radius kernel =>
      cases second with
      | smooth _ _ _ => exact ⟨fun _ plots => plots.elim, fun _ plots => plots.elim⟩
      | _ => exact absurd equal (by simp [Waveform.same])
  | aligned inner alignment fill ih =>
      cases second with
      | aligned inner' alignment' fill' =>
          rw [Waveform.same, Bool.and_eq_true] at equal
          rw [Waveform.aligned_means_iff] at means means'
          have alike := ih _ _ _ means.2 means'.2 equal.2
          exact alike
      | _ => exact absurd equal (by simp [Waveform.same])

variable {relation : Waveform → Waveform → Prop}

/-- A waveform that is equal to another one may stand for it below a factor. -/
theorem scale_same_redraws {factor : Scalar} {number : Decimal} {meaning meaning' : Signal}
    (factorMeans : Scalar.Means bindings factor number)
    (means : Waveform.Means bindings inner meaning)
    (means' : Waveform.Means bindings inner' meaning') (equal : inner.same inner' = true) :
    Redraws interpolated bindings (.scale factor inner) (.scale factor inner') :=
  scale_redraws factorMeans factorMeans (same_redraws _ _ _ _ means means' equal).1

theorem double_redraws {meaning meaning' : Signal} (means : Waveform.Means bindings left meaning)
    (means' : Waveform.Means bindings right meaning') (equal : left.same right = true) :
    Redraws interpolated bindings (.add left right) (.scale (.literal 2) left) := by
  have one : Scalar.Means bindings (.literal 1) 1 := Scalar.literal_means 1
  have two : Scalar.Means bindings (.literal 2) (1 + 1) := Scalar.literal_means 2
  apply Redraws.trans (add_redraws (redraws_scale_one one) _) (gather_redraws one one two)
  exact (same_redraws _ _ _ _ means means' equal).2.trans (redraws_scale_one one)

theorem increase_redraws {factor : Scalar} {number : Decimal} {meaning meaning' : Signal}
    (factorMeans : Scalar.Means bindings factor number)
    (means : Waveform.Means bindings inner meaning)
    (means' : Waveform.Means bindings given meaning') (equal : inner.same given = true) :
    Redraws interpolated bindings (.add (.scale factor inner) given)
      (.scale (Canonical.sum factor Scalar.one) given) := by
  have one : Scalar.Means bindings Scalar.one 1 := Scalar.literal_means 1
  exact (add_redraws (scale_same_redraws factorMeans means means' equal)
    (redraws_scale_one one)).trans (gather_redraws factorMeans one (sum_means factorMeans one))

theorem plain_sum_yields_redrawn {leftMeaning rightMeaning : Signal}
    (leftMeans : Waveform.Means bindings left leftMeaning)
    (rightMeans : Waveform.Means bindings right rightMeaning) :
    Yields (Faithful bindings relation) (plainSum left right)
      (Redraws interpolated bindings (.add left right)) := by
  unfold plainSum
  split
  case h_1 factor inner =>
      split_ifs with equal
      · rcases (Waveform.scale_means_iff _ _ _).1 rightMeans with
          ⟨number, innerMeaning, factorMeans, innerMeans, rfl⟩
        exact scale_yields_after
          (swap_redraws.trans (increase_redraws factorMeans innerMeans leftMeans equal))
          (sum_means factorMeans (Scalar.literal_means 1)) leftMeans
      · exact .pure (Redraws.refl _)
  case h_2 => exact .pure (Redraws.refl _)

/-- What is claimed of the sum of two canonical waveforms that last a while. -/
def AddRedraws (bindings : ScalarBindings) (relation : Waveform → Waveform → Prop)
    (left right : Waveform) : Prop :=
  ∀ interpolated leftMeaning rightMeaning, Waveform.Means bindings left leftMeaning →
    Waveform.Means bindings right rightMeaning → 0 < leftMeaning.duration →
    0 < rightMeaning.duration →
    Yields (Faithful bindings relation) (add left right)
      (Redraws interpolated bindings (.add left right))

/-- One step of the sum; the sum of the waveforms inside two scales is left to the recursion. -/
theorem add_redraws_step
    (recursion : ∀ factor inner, left = .scale factor inner → ∀ other,
      AddRedraws bindings relation inner other) : AddRedraws bindings relation left right := by
  intro interpolated leftMeaning rightMeaning leftMeans rightMeans leftPositive rightPositive
  unfold add
  split_ifs with equal
  · exact scale_yields_after (double_redraws leftMeans rightMeans equal) (Scalar.literal_means 2)
      leftMeans
  refine (is_redundant_yields leftMeans rightMeans leftPositive).bind fun leftRedundant adds => ?_
  split_ifs with leftNothing
  · exact .pure (redundant_sum_redraws (adds leftNothing) rightMeans)
  clear adds
  refine (is_redundant_yields rightMeans leftMeans rightPositive).bind fun rightRedundant adds => ?_
  split_ifs with rightNothing
  · exact .pure (swap_redraws.trans (redundant_sum_redraws (adds rightNothing) leftMeans))
  clear adds
  split
  case h_1 leftValue leftLength rightValue rightLength =>
      split_ifs with sameLength
      · rcases (Waveform.constant_means_iff _ _ _).1 leftMeans with
          ⟨first, firstLength, leftValueMeans, leftLengthMeans, _, rfl⟩
        rcases (Waveform.constant_means_iff _ _ _).1 rightMeans with
          ⟨second, secondLength, rightValueMeans, rightLengthMeans, _, rfl⟩
        rw [← leftLengthMeans.of_same rightLengthMeans sameLength] at rightLengthMeans
        exact .pure (constant_sum_redraws leftValueMeans leftLengthMeans rightValueMeans
          rightLengthMeans)
      · exact plain_sum_yields_redrawn leftMeans rightMeans
  case h_2 leftFactor leftInner rightFactor rightInner =>
      split_ifs with sameFactor sameInner
      · rcases (Waveform.scale_means_iff _ _ _).1 leftMeans with
          ⟨number, leftInnerMeaning, leftFactorMeans, leftInnerMeans, rfl⟩
        rcases (Waveform.scale_means_iff _ _ _).1 rightMeans with
          ⟨_, rightInnerMeaning, rightFactorMeans, rightInnerMeans, rfl⟩
        rw [← leftFactorMeans.of_same rightFactorMeans sameFactor] at rightFactorMeans
        have stands : Yields (Faithful bindings relation) (add leftInner rightInner)
            (Stands bindings (leftInnerMeaning.plus rightInnerMeaning)) :=
          add_yields _ _ _ _ leftInnerMeans rightInnerMeans leftPositive rightPositive
        have redrawn := recursion leftFactor leftInner rfl rightInner interpolated _ _
          leftInnerMeans rightInnerMeans leftPositive rightPositive
        refine (stands.both redrawn).bind fun sum' both => ?_
        rcases both with ⟨⟨sumMeaning, sumMeans, _⟩, redraws⟩
        exact scale_yields_after ((factor_redraws leftFactorMeans rightFactorMeans).trans
          (scale_redraws leftFactorMeans leftFactorMeans redraws)) leftFactorMeans sumMeans
      · rcases (Waveform.scale_means_iff _ _ _).1 leftMeans with
          ⟨_, leftInnerMeaning, leftFactorMeans, leftInnerMeans, rfl⟩
        rcases (Waveform.scale_means_iff _ _ _).1 rightMeans with
          ⟨_, rightInnerMeaning, rightFactorMeans, rightInnerMeans, rfl⟩
        have bothMeans := sum_means leftFactorMeans rightFactorMeans
        refine scale_yields_after (Redraws.trans (add_redraws (Redraws.refl _) ?_)
          (gather_redraws leftFactorMeans rightFactorMeans bothMeans)) bothMeans leftInnerMeans
        exact scale_redraws rightFactorMeans rightFactorMeans
          (same_redraws _ _ _ _ leftInnerMeans rightInnerMeans sameInner).2
      · exact plain_sum_yields_redrawn leftMeans rightMeans
  case h_3 leftFactor leftInner _ =>
      split_ifs with sameInner
      · rcases (Waveform.scale_means_iff _ _ _).1 leftMeans with
          ⟨number, leftInnerMeaning, leftFactorMeans, leftInnerMeans, rfl⟩
        exact scale_yields_after
          (increase_redraws leftFactorMeans leftInnerMeans rightMeans sameInner)
          (sum_means leftFactorMeans (Scalar.literal_means 1)) rightMeans
      · exact plain_sum_yields_redrawn leftMeans rightMeans
  case h_4 => exact plain_sum_yields_redrawn leftMeans rightMeans

theorem add_yields_redrawn (left right : Waveform) : AddRedraws bindings relation left right := by
  induction left using Waveform.parts_induction generalizing right with
  | scale factor inner ih =>
      apply add_redraws_step
      rintro _ _ ⟨⟩ other
      exact ih other
  | _ =>
      apply add_redraws_step
      rintro _ _ ⟨⟩

def CutRedraws (bindings : ScalarBindings) (relation : Waveform → Waveform → Prop)
    (bounds : Interval) (given : Waveform) : Prop :=
  ∀ interpolated meaning lower upper, Waveform.Means bindings given meaning →
    CutsOut bindings bounds meaning.duration lower upper →
    Yields (Faithful bindings relation) (cut bounds given)
      (Redraws interpolated bindings (.slice given bounds))

/-- One step of a slice; slices inside scales and negations are left to the recursion. -/
theorem cut_redraws_step {bounds : Interval}
    (insideScale : ∀ factor inner, given = .scale factor inner →
      CutRedraws bindings relation bounds inner)
    (insideNegation : ∀ inner, given = .negative inner →
      CutRedraws bindings relation bounds inner) :
    CutRedraws bindings relation bounds given := by
  intro interpolated meaning lower upper means cutsOut
  have lasts := duration_of_signal means.means
  unfold cut
  refine (duration_yields means).bind fun length lengthMeans => ?_
  split_ifs with covers
  · rcases covers_all_cut cutsOut lengthMeans covers with ⟨rfl, rfl⟩
    exact .pure (slice_all_redraws cutsOut lasts)
  split
  case h_1 factor inner =>
      rcases (Waveform.scale_means_iff _ _ _).1 means with
        ⟨number, innerMeaning, factorMeans, innerMeans, rfl⟩
      have stands : Yields (Faithful bindings relation) (cut bounds inner)
          (Stands bindings (innerMeaning.cut lower upper)) :=
        cut_yields bounds inner _ _ _ innerMeans cutsOut
      have redrawn := insideScale factor inner rfl interpolated _ _ _ innerMeans cutsOut
      refine (stands.both redrawn).bind fun inner' both => ?_
      rcases both with ⟨⟨found, foundMeans, _⟩, redraws⟩
      have innerLasts := duration_of_signal innerMeans.means
      exact scale_yields_after ((slice_scale_redraws factorMeans cutsOut innerLasts).trans
        (scale_redraws factorMeans factorMeans redraws)) factorMeans foundMeans
  case h_2 inner =>
      rcases (Waveform.negative_means_iff _ _).1 means with ⟨innerMeaning, innerMeans, rfl⟩
      have stands : Yields (Faithful bindings relation) (cut bounds inner)
          (Stands bindings (innerMeaning.cut lower upper)) :=
        cut_yields bounds inner _ _ _ innerMeans cutsOut
      have redrawn := insideNegation inner rfl interpolated _ _ _ innerMeans cutsOut
      refine (stands.both redrawn).bind fun inner' both => ?_
      rcases both with ⟨⟨found, foundMeans, _⟩, redraws⟩
      have innerLasts := duration_of_signal innerMeans.means
      exact (negate_yields_redrawn foundMeans).mono fun _ =>
        ((slice_negative_redraws cutsOut innerLasts).trans (negative_redraws redraws)).trans
  case h_3 value extent =>
      rcases (Waveform.constant_means_iff _ _ _).1 means with
        ⟨number, extentNumber, valueMeans, extentMeans, _, rfl⟩
      rcases cutsOut.values with ⟨start, stop, startMeans, stopMeans, startSame, stopSame⟩
      have lengthOk : sliceLength extentNumber start stop = .ok (upper - lower) := by
        rw [Signal.duration_within] at stopSame
        rw [Waveform.slice_length_ok_iff, ← startSame, ← stopSame]
        exact ⟨⟨cutsOut.nonneg, cutsOut.ordered, cutsOut.reached⟩, rfl⟩
      rcases slice_means (fun _ => (Waveform.slice (.constant value extent) bounds).text) extentMeans
        startMeans stopMeans lengthOk with ⟨result, sliced, resultMeans⟩
      have lifted : Yields (Faithful bindings relation) (lift _)
          (Scalar.Means bindings · (upper - lower)) :=
        .lift sliced resultMeans
      exact lifted.bind fun newLength newMeans =>
        .pure (slice_constant_redraws valueMeans extentMeans newMeans cutsOut lasts)
  case h_4 => exact .pure (Redraws.refl _)

theorem cut_yields_redrawn (bounds : Interval) (given : Waveform) :
    CutRedraws bindings relation bounds given := by
  induction given using Waveform.parts_induction with
  | scale factor inner ih =>
      apply cut_redraws_step
      · rintro _ _ ⟨⟩
        exact ih
      · rintro _ ⟨⟩
  | negative inner ih =>
      apply cut_redraws_step
      · rintro _ _ ⟨⟩
      · rintro _ ⟨⟩
        exact ih
  | _ =>
      apply cut_redraws_step
      · rintro _ _ ⟨⟩
      · rintro _ ⟨⟩

end Analog.Canonical
