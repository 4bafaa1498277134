import Analog.Proofs.SteppedWaveforms

/-!
# Series that are the same

Series are compared at their breakpoints alone. For constant series this is enough: between two
neighbouring breakpoints of either series none of them changes, so they agree at every time once
they agree at all breakpoints. Linear series that are the same may still differ in between, where
their values are rounded.
-/

set_option autoImplicit false

namespace Analog

open Breakpoints

namespace Series

/-- A series of the given form with well-formed breakpoints. -/
structure Formed (target : Target) (series : Series) : Prop where
  form : series.target = target
  points : WellFormed series.points

theorem Formed.linear {series : Series} (formed : series.Formed .linear) :
    ∃ line, series = linear line ∧ WellFormed line.points := by
  cases series with
  | linear line => exact ⟨line, rfl, formed.points⟩
  | constant steps => exact nomatch formed.form

theorem Formed.constant {series : Series} (formed : series.Formed .constant) :
    ∃ steps, series = constant steps ∧ WellFormed steps.points := by
  cases series with
  | linear line => exact nomatch formed.form
  | constant steps => exact ⟨steps, rfl, formed.points⟩

/-- A series of two lists is formed, and a constant one ends flat. -/
theorem of_lists_formed {target : Target} {timeList valueList : List Decimal} {series : Series}
    (made : ofLists target timeList valueList = .ok series) :
    series.Formed target ∧ (target = .constant → FlatEnd series.points) := by
  rcases (of_lists_ok_iff _ _ _ _).1 made with ⟨points, fromLists, rfl⟩
  rcases (Breakpoints.of_lists_ok_iff _ _ _).1 fromLists with ⟨paired, rfl⟩
  have formed := well_formed_of_paired paired (lists_of_zip paired.sameLength).1
  cases target with
  | linear => exact ⟨⟨rfl, formed⟩, nofun⟩
  | constant =>
      refine ⟨⟨rfl, ?_⟩, fun _ => flat_end_flat_tail _⟩
      exact well_formed_of_times (times_flat_tail _).symm formed

end Series

namespace LinearSeries

variable {left right : LinearSeries}

theorem same_iff : left.same right = true ↔ left.duration = right.duration ∧
    ∀ time ∈ times left.points ++ times right.points, left.eval time = right.eval time := by
  simp only [same, Bool.and_eq_true, beq_iff_eq, List.all_eq_true]

/-- Series are the same if every breakpoint of the second is one of the first, and they agree at the
breakpoints of the first. -/
theorem same_of_finer (sameDuration : left.duration = right.duration)
    (finer : ∀ time ∈ times right.points, time ∈ times left.points)
    (agree : ∀ time ∈ times left.points, left.eval time = right.eval time) :
    left.same right = true := by
  rw [same_iff]
  constructor
  · exact sameDuration
  · intro time member
    rcases List.mem_append.1 member with inLeft | inRight
    · exact agree time inLeft
    · exact agree time (finer time inRight)

end LinearSeries

namespace ConstantSeries

variable {series left right : ConstantSeries}

theorem same_iff : left.same right = true ↔ left.duration = right.duration ∧
    ∀ time ∈ times left.points ++ times right.points, left.eval time = right.eval time := by
  simp only [same, Bool.and_eq_true, beq_iff_eq, List.all_eq_true]

theorem eval_of_outside {time : Decimal} (outside : time < 0 ∨ series.duration < time) :
    series.eval time = 0 := by
  unfold eval
  rw [if_pos (by simpa using outside)]

/-- Up to the end of the series the value is that of the point that holds. -/
theorem eval_of_holds (formed : WellFormed series.points) {time : Decimal} {point : Breakpoint}
    (reached : time ≤ series.duration) (holds : Holds series.points time point) :
    series.eval time = point.value := by
  have nonneg : 0 ≤ time := (formed.time_nonneg holds.member).trans holds.notLater
  rcases holds_segment series.points formed time nonneg with ⟨current, found, currentHolds⟩
  unfold eval stepValue
  rw [if_neg (by simpa using ⟨nonneg, reached⟩), found, currentHolds.unique formed holds]
  rfl

theorem eval_of_mem (formed : WellFormed series.points) {point : Breakpoint}
    (member : point ∈ series.points) : series.eval point.time = point.value := by
  apply eval_of_holds formed (formed.time_le_duration member)
  exact ⟨member, le_rfl, fun _ _ notLater => notLater⟩

theorem eval_eq_of_no_point (formed : WellFormed series.points) {earlier later : Decimal}
    (nonneg : 0 ≤ earlier) (ordered : earlier ≤ later) (reached : later ≤ series.duration)
    (none : ∀ time ∈ times series.points, time ≤ later → time ≤ earlier) :
    series.eval earlier = series.eval later := by
  rcases holds_segment series.points formed earlier nonneg with ⟨point, _, holds⟩
  have stillHolds : Holds series.points later point := by
    apply holds.later ordered
    intro other member notLater
    exact none other.time (List.mem_map_of_mem member) notLater
  rw [eval_of_holds formed (ordered.trans reached) holds, eval_of_holds formed reached stillHolds]

/-- The last breakpoint of either series that is not later than a time decides the values of both
there. So series that agree at their breakpoints agree at all times. -/
theorem eval_eq_of_same (leftFormed : WellFormed left.points) (rightFormed : WellFormed right.points)
    (equal : left.same right = true) (time : Decimal) : left.eval time = right.eval time := by
  rcases same_iff.1 equal with ⟨sameDuration, agree⟩
  by_cases within : 0 ≤ time ∧ time ≤ left.duration
  · rcases within with ⟨nonneg, reached⟩
    have reachedToo : time ≤ right.duration := sameDuration ▸ reached
    have bothFormed := merged_well_formed leftFormed rightFormed fun _ => 0
    rcases holds_segment _ bothFormed time nonneg with ⟨last, _, holds⟩
    have lastMember : last.time ∈ union (times left.points) (times right.points) := by
      rw [← times_merged fun _ => 0]
      exact List.mem_map_of_mem holds.member
    have lastNonneg : 0 ≤ last.time := bothFormed.time_nonneg holds.member
    have latest : ∀ other, other ∈ times left.points ∨ other ∈ times right.points →
        other ≤ time → other ≤ last.time := by
      intro other member notLater
      apply holds.latest ⟨other, 0⟩ _ notLater
      exact List.mem_map.2 ⟨other, (mem_union _ _ _).2 member, rfl⟩
    have leftKept := eval_eq_of_no_point leftFormed lastNonneg holds.notLater reached
      fun other member => latest other (Or.inl member)
    have rightKept := eval_eq_of_no_point rightFormed lastNonneg holds.notLater reachedToo
      fun other member => latest other (Or.inr member)
    rw [← leftKept, ← rightKept]
    exact agree last.time (List.mem_append.2 ((mem_union _ _ _).1 lastMember))
  · rw [not_and_or, not_le, not_le] at within
    rw [eval_of_outside within, eval_of_outside (sameDuration ▸ within)]

theorem same_iff_eval_eq (leftFormed : WellFormed left.points)
    (rightFormed : WellFormed right.points) :
    left.same right = true ↔
      left.duration = right.duration ∧ ∀ time, left.eval time = right.eval time := by
  constructor
  · intro equal
    exact ⟨(same_iff.1 equal).1, eval_eq_of_same leftFormed rightFormed equal⟩
  · intro alike
    exact same_iff.2 ⟨alike.1, fun time _ => alike.2 time⟩

def Made (series : ConstantSeries) : Prop :=
  ∃ timeList valueList, ofLists timeList valueList = .ok series

theorem Made.formed (made : series.Made) : WellFormed series.points := by
  rcases made with ⟨timeList, valueList, made⟩
  have asSeries : Series.ofLists .constant timeList valueList = .ok (.constant series) :=
    (Outcome.map_ok_iff _ _ _).2 ⟨series, made, rfl⟩
  exact (Series.of_lists_formed asSeries).1.points

/-- Constant series are the same exactly when they are the same function on the same duration:
which breakpoints they have does not matter. -/
theorem same_as_functions :
    (∀ left right : {series : ConstantSeries // series.Made},
      left.1.same right.1 = true ↔
        left.1.duration = right.1.duration ∧ ∀ time, left.1.eval time = right.1.eval time) ∧
    Equivalence fun left right : {series : ConstantSeries // series.Made} =>
      left.1.same right.1 = true := by
  have functions : ∀ left right : {series : ConstantSeries // series.Made},
      left.1.same right.1 = true ↔
        left.1.duration = right.1.duration ∧ ∀ time, left.1.eval time = right.1.eval time :=
    fun left right => same_iff_eval_eq left.2.formed right.2.formed
  constructor
  · exact functions
  · constructor
    · intro series
      rw [functions]
      exact ⟨rfl, fun _ => rfl⟩
    · intro left right equal
      rw [functions] at equal ⊢
      exact ⟨equal.1.symm, fun time => (equal.2 time).symm⟩
    · intro first second third firstEqual secondEqual
      rw [functions] at firstEqual secondEqual ⊢
      exact ⟨firstEqual.1.trans secondEqual.1,
        fun time => (firstEqual.2 time).trans (secondEqual.2 time)⟩

example : ConstantSeries.same ⟨[⟨0, 2⟩, ⟨1, 2⟩, ⟨3, 2⟩]⟩ ⟨[⟨0, 2⟩, ⟨2, 2⟩, ⟨3, 2⟩]⟩ = true := by
  decide

end ConstantSeries

end Analog
