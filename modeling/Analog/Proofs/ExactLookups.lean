import Analog.Proofs.LinearFunctions
import Analog.Proofs.StepFunctions

/-!
# Exact lookups

Evaluation, sums and slices rest on three ways of going through lists of times: looking up the
segment of a time, merging two lists, and cutting one. In lists that increase each is exact, also
at equal times, at the ends and in lists of one time. A slice of a series of either form consists
of what is cut out between points at its ends.
-/

set_option autoImplicit false

namespace Analog

open Breakpoints

namespace Series

/-- A slice keeps what is cut out; only the values at its ends are its own. -/
theorem slice_keeps {series part : Series} {start stop : Decimal}
    (increasing : (times series.points).Pairwise (· < ·))
    (sliced : series.slice start stop = .ok part) :
    ∃ first last, part.points = cutOut series.points start stop first last := by
  cases series with
  | linear line =>
      obtain ⟨cut, cutsLine, rfl⟩ := (Outcome.map_ok_iff _ _ _).1 sliced
      obtain ⟨_, rfl⟩ := (LinearSeries.slice_ok_iff start stop).1 cutsLine
      exact ⟨_, _, rfl⟩
  | constant steps =>
      obtain ⟨cut, cutsSteps, rfl⟩ := (Outcome.map_ok_iff _ _ _).1 sliced
      obtain ⟨⟨_, ordered, _⟩, rfl⟩ := (ConstantSeries.slice_ok_iff start stop cut).1 cutsSteps
      exact ⟨_, flat_tail_cut_out increasing ordered _ _⟩

end Series

namespace Breakpoints

theorem head_reached_iff {timeList : List Decimal} (nonempty : timeList ≠ []) (time : Decimal) :
    0 ∈ reached timeList time ↔ timeList.head nonempty ≤ time := by
  obtain ⟨first, rest, rfl⟩ := List.exists_cons_of_ne_nil nonempty
  simp [reached]

/-- The search finds the least index of a condition that lasts. Both lookups find the last time
that is not later, or the first segment before all times; merging gives the one increasing list of
all times of both lists; and what lies strictly between two times is all that is kept of a list
that is cut there. -/
theorem lookups_merges_cuts_exact :
    (∀ (condition : Nat → Bool) (count : Nat), Lasting condition count →
      IsLeast {index | index < count → condition index = true} (least count condition)) ∧
    (∀ (timeList : List Decimal) (nonempty : timeList ≠ []), timeList.Pairwise (· < ·) →
      ∀ time, lastAtMost timeList time = segment timeList time ∧
        (timeList.head nonempty ≤ time →
          IsGreatest {index | ∃ other ∈ timeList[index]?, other ≤ time} (segment timeList time)) ∧
        (time < timeList.head nonempty → segment timeList time = 0)) ∧
    (∀ left right : List Decimal, left.Pairwise (· < ·) → right.Pairwise (· < ·) →
      ∀ merged, union left right = merged ↔
        merged.Pairwise (· < ·) ∧ ∀ time, time ∈ merged ↔ time ∈ left ∨ time ∈ right) ∧
    (∀ points : List Breakpoint, (times points).Pairwise (· < ·) → ∀ start stop,
      inside points start stop =
        (points.filter fun point => start < point.time ∧ point.time < stop).map
          (·.shift (-start))) ∧
    ∀ (series part : Series) (start stop : Decimal), (times series.points).Pairwise (· < ·) →
      series.slice start stop = .ok part →
        ∃ first last, part.points = ⟨0, first⟩ :: inside series.points start stop ++
          if start < stop then [⟨stop - start, last⟩] else [] := by
  refine ⟨fun _ _ => least_is_least, ?_, fun _ _ => union_eq_iff, fun _ => inside_eq_filter,
    fun _ _ _ _ => Series.slice_keeps⟩
  intro timeList nonempty increasing time
  refine ⟨last_at_most_eq_segment timeList time, ?_, ?_⟩
  · intro started
    exact segment_greatest increasing ⟨0, (head_reached_iff nonempty time).2 started⟩
  · intro early
    apply segment_of_not_reached increasing
    rw [head_reached_iff nonempty]
    exact not_le.2 early

def threeSteps : ConstantSeries := ⟨[⟨0, 5⟩, ⟨1, 6⟩, ⟨2, 7⟩, ⟨3, 7⟩]⟩

/-- Times that are equal to others, before the first one and at the ends of a cut. -/
theorem lookups_merges_cuts_exact_equal_times :
    Lasting (fun index => decide (2 ≤ index)) 4 ∧
    IsLeast {index | index < 4 → decide (2 ≤ index) = true}
      (least 4 fun index => decide (2 ≤ index)) ∧
    [1, 2, (4 : Decimal)].Pairwise (· < ·) ∧ lastAtMost [1, 2, 4] 2 = segment [1, 2, 4] 2 ∧
    IsGreatest {index | ∃ other ∈ [1, 2, (4 : Decimal)][index]?, other ≤ 2}
      (segment [1, 2, 4] 2) ∧
    segment [1, 2, 4] 2 = 1 ∧ segment [1, 2, 4] 0 = 0 ∧
    union [0, 1, 3] [1, 2] = [0, 1, 2, 3] ∧ inside threeSteps.points 1 3 = [⟨1, 7⟩] ∧
    ∃ part first last, (Series.constant threeSteps).slice 1 3 = .ok part ∧
      part.points = [⟨0, first⟩, ⟨1, 7⟩, ⟨2, last⟩] := by
  obtain ⟨searches, lookups, merges, cuts, slices⟩ := lookups_merges_cuts_exact
  have lasting : Lasting (fun index => decide (2 ≤ index)) 4 := by
    intro first second ordered _ holds
    rw [decide_eq_true_eq] at holds ⊢
    exact holds.trans ordered
  have increasing : [1, 2, (4 : Decimal)].Pairwise (· < ·) := by decide
  obtain ⟨same, greatest, _⟩ := lookups _ (List.cons_ne_nil _ _) increasing 2
  have early := (lookups _ (List.cons_ne_nil _ _) increasing 0).2.2 (by decide)
  have cutOnce : inside threeSteps.points 1 3 = [⟨1, 7⟩] :=
    (cuts threeSteps.points (by decide) 1 3).trans (by decide)
  have sliced : (Series.constant threeSteps).slice 1 3 =
      .ok (.constant ⟨[⟨0, 6⟩, ⟨1, 7⟩, ⟨2, 7⟩]⟩) := by decide
  obtain ⟨first, last, points⟩ := slices _ _ 1 3 (by decide) sliced
  refine ⟨lasting, searches _ _ lasting, increasing, same, greatest (by decide), by decide,
    early, ?_, cutOnce, _, first, last, sliced, ?_⟩
  · refine (merges _ _ (by decide) (by decide) _).2 ⟨by decide, fun time => ?_⟩
    simp only [List.mem_cons, List.not_mem_nil, or_false]
    tauto
  · rw [points]
    change _ :: inside threeSteps.points 1 3 ++ _ = _
    rw [cutOnce]
    rfl

end Breakpoints

end Analog
