import Analog.Proofs.SeriesGraphs

/-!
# Series with fewer breakpoints on the same lines

A breakpoint on the line between its neighbours can be left out, and the exact values stay as they
are. What is evaluated between breakpoints may be rounded otherwise then, unless the values have few
digits or the breakpoint stood between equal values.
-/

set_option autoImplicit false

namespace Analog.LinearSeries

open Breakpoints

/-- The second series has the exact values of the first, and no other breakpoints. -/
structure Straightens (series straight : LinearSeries) : Prop where
  lasts : straight.duration = series.duration
  times : times straight.points ⊆ times series.points
  graph : ∀ time, straight.graph time = series.graph time

theorem times_subset_of_drops {full thin : List Breakpoint} (drops : Drops full thin) :
    times thin ⊆ times full := by
  rcases drops with ⟨before, after, _, _⟩
  apply List.map_subset
  apply List.Sublist.subset
  exact (List.Sublist.refl before).append ((List.sublist_cons_self _ _).cons_cons _)

theorem ThinsTo.straightens {series thinned : LinearSeries} (formed : WellFormed series.points)
    (thins : ThinsTo series thinned) : Straightens series thinned := by
  refine ⟨thins.duration_eq, ?_, graph_thinned formed thins⟩
  have subset : ∀ {full thin : List Breakpoint}, Thins full thin → times thin ⊆ times full := by
    intro full thin thins
    induction thins with
    | refl => exact List.Subset.refl _
    | tail _ drops ih => exact List.Subset.trans (times_subset_of_drops drops) ih
  exact subset thins

namespace Straightens

variable {first second third straight straight' : LinearSeries}

theorem refl (series : LinearSeries) : Straightens series series :=
  ⟨rfl, List.Subset.refl _, fun _ => rfl⟩

theorem trans (one : Straightens first second) (two : Straightens second third) :
    Straightens first third :=
  ⟨two.lasts.trans one.lasts, List.Subset.trans two.times one.times,
    fun time => (two.graph time).trans (one.graph time)⟩

theorem map (straightens : Straightens first straight) (factor : Decimal) :
    Straightens (first.map (factor * ·)) (straight.map (factor * ·)) := by
  constructor
  · rw [duration_map, duration_map, straightens.lasts]
  · rw [times_map, times_map]
    exact straightens.times
  · intro time
    rw [graph_map, graph_map, straightens.graph]

theorem negate (straightens : Straightens first straight) :
    Straightens (first.map (-·)) (straight.map (-·)) := by
  simpa only [neg_one_mul] using straightens.map (-1)

theorem eval_eq (straightens : Straightens first straight) (formed : WellFormed first.points)
    (formed' : WellFormed straight.points) {time : Decimal}
    (member : time ∈ Breakpoints.times first.points)
    (member' : time ∈ Breakpoints.times straight.points) : straight.eval time = first.eval time := by
  apply Decimal.to_rat_injective
  have exact := exact_at_breakpoint formed member
  have exact' := exact_at_breakpoint formed' member'
  exact exact'.trans ((straightens.graph time).trans exact.symm)

theorem eval_start (straightens : Straightens first straight) (formed : WellFormed first.points)
    (formed' : WellFormed straight.points) : straight.eval 0 = first.eval 0 :=
  straightens.eval_eq formed formed' formed.zero_mem_times formed'.zero_mem_times

theorem eval_stop (straightens : Straightens first straight) (formed : WellFormed first.points)
    (formed' : WellFormed straight.points) :
    straight.eval straight.duration = first.eval first.duration := by
  have member' : first.duration ∈ Breakpoints.times straight.points := by
    rw [← straightens.lasts]
    exact formed'.duration_mem_times
  rw [straightens.lasts]
  exact straightens.eval_eq formed formed' formed.duration_mem_times member'

theorem meet (straightens : Straightens first straight) (straightens' : Straightens second straight')
    (lasts : Lasts first) (lasts' : Lasts second) (kept : Lasts straight) (kept' : Lasts straight')
    (meets : Meet first second) : Meet straight straight' := by
  unfold Meet
  rw [straightens.eval_stop lasts.formed kept.formed, straightens'.eval_start lasts'.formed kept'.formed]
  exact meets

theorem followed_by (straightens : Straightens first straight)
    (straightens' : Straightens second straight') (lasts : Lasts first) (lasts' : Lasts second)
    (kept : Lasts straight) (kept' : Lasts straight') (meets : Meet first second) :
    Straightens (first.followedBy second) (straight.followedBy straight') := by
  have met := straightens.meet straightens' lasts lasts' kept kept' meets
  constructor
  · rw [(followed_by_spans lasts lasts').lasts, (followed_by_spans kept kept').lasts,
      straightens.lasts, straightens'.lasts]
  · intro time member
    have sameDuration : Breakpoints.duration straight.points = Breakpoints.duration first.points :=
      straightens.lasts
    apply (mem_times_joined lasts.formed lasts'.formed time).2
    rcases (mem_times_joined kept.formed kept'.formed time).1 member with
      early | ⟨other, late, moved⟩
    · exact .inl (straightens.times early)
    · rw [sameDuration] at moved
      exact .inr ⟨other, straightens'.times late, moved⟩
  · intro time
    rw [graph_followed_by lasts lasts' meets, graph_followed_by kept kept' met, straightens.lasts,
      straightens.graph, straightens'.graph]

/-- If no breakpoint has too many digits, straightened series are the same function. -/
theorem same (straightens : Straightens first straight) (formed : WellFormed first.points)
    (formed' : WellFormed straight.points)
    (digits : ∀ point ∈ first.points, point.value.scale ≤ Decimal.quotientPlaces) :
    first.same straight = true := by
  have digits' : ∀ point ∈ straight.points, point.value.scale ≤ Decimal.quotientPlaces := by
    intro point member
    have pointTime := List.mem_map_of_mem (f := Breakpoint.time) member
    rcases List.mem_map.1 (straightens.times pointTime) with ⟨original, originalMember, sameTime⟩
    have same := straightens.graph point.time
    rw [graph_of_mem formed' member, ← sameTime, graph_of_mem formed originalMember] at same
    rw [Decimal.to_rat_injective same]
    exact digits original originalMember
  apply same_of_finer straightens.lasts.symm fun time member => straightens.times member
  intro time member
  rcases List.mem_map.1 member with ⟨point, pointMember, rfl⟩
  have reaches := (straightens.graph point.time).trans (graph_of_mem formed pointMember)
  have reached : point.time ≤ straight.duration := by
    rw [straightens.lasts]
    exact formed.time_le_duration pointMember
  rw [eval_of_mem formed pointMember]
  exact (eval_eq_of_graph formed' digits' (digits point pointMember) reaches
    (formed.time_nonneg pointMember) reached).symm

end Straightens

/-- What simplification keeps of a series: its exact values, and all values if nothing is
interpolated on the way. -/
structure Preserves (interpolated : Bool) (series kept : LinearSeries) : Prop where
  straightens : Straightens series kept
  thins : interpolated = false → ThinsTo series kept

namespace Preserves

variable {interpolated : Bool} {first second third kept kept' : LinearSeries}

theorem refl (series : LinearSeries) : Preserves interpolated series series :=
  ⟨.refl series, fun _ => .refl series⟩

theorem trans (one : Preserves interpolated first second) (two : Preserves interpolated second third) :
    Preserves interpolated first third :=
  ⟨one.straightens.trans two.straightens, fun plain => (one.thins plain).trans (two.thins plain)⟩

theorem of_thins (formed : WellFormed first.points) (thins : ThinsTo first kept) :
    Preserves interpolated first kept :=
  ⟨thins.straightens formed, fun _ => thins⟩

theorem map (keeps : Preserves interpolated first kept) (factor : Decimal) :
    Preserves interpolated (first.map (factor * ·)) (kept.map (factor * ·)) :=
  ⟨keeps.straightens.map factor, fun plain => (keeps.thins plain).map _⟩

theorem negate (keeps : Preserves interpolated first kept) :
    Preserves interpolated (first.map (-·)) (kept.map (-·)) :=
  ⟨keeps.straightens.negate, fun plain => (keeps.thins plain).map _⟩

theorem followed_by (keeps : Preserves interpolated first kept) (keeps' : Preserves interpolated second kept')
    (lasts : Lasts first) (lasts' : Lasts second) (keptLasts : Lasts kept) (keptLasts' : Lasts kept')
    (meets : Meet first second) :
    Preserves interpolated (first.followedBy second) (kept.followedBy kept') := by
  constructor
  · exact keeps.straightens.followed_by keeps'.straightens lasts lasts' keptLasts keptLasts' meets
  · intro plain
    exact (keeps.thins plain).followed_by (keeps'.thins plain) lasts lasts' meets

end Preserves

end Analog.LinearSeries
