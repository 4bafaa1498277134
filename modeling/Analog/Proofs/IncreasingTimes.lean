import Analog.Proofs.DecimalRing
import Analog.Series
import Mathlib.Data.List.Sort
import Mathlib.Order.Bounds.Basic

/-!
# Increasing times

Times are looked up by halving a range of indices. At every step the condition that is searched
for fails before the range and holds after it, so the search ends at the first index from which it
holds. In a list that increases this parts the earlier times from the later ones. Both ways of
looking up a time are this search. Cutting a list keeps what a filter keeps, and merging two lists
gives the one increasing list of all their times.
-/

set_option autoImplicit false

namespace Analog.Breakpoints

/-- Once a condition holds, it holds at every later index below a count. -/
def Lasting (condition : Nat → Bool) (count : Nat) : Prop :=
  ∀ first second, first ≤ second → second < count →
    condition first = true → condition second = true

/-- A range to which a search has come: the condition fails before it and holds after it. -/
structure Narrowed (condition : Nat → Bool) (count low high : Nat) : Prop where
  ordered : low ≤ high
  bounded : high ≤ count
  before : ∀ index, index < low → condition index = false
  after : ∀ index, high ≤ index → index < count → condition index = true

section Halving

variable {condition : Nat → Bool} {count low high middle position : Nat}

theorem narrowed_whole : Narrowed condition count 0 count where
  ordered := Nat.zero_le count
  bounded := le_rfl
  before index early := absurd early (Nat.not_lt_zero index)
  after _ late early := absurd early (not_lt.2 late)

/-- Where the condition holds in the middle, the upper half is done. -/
theorem Narrowed.lower (narrowed : Narrowed condition count low high)
    (lasting : Lasting condition count) (reached : low ≤ middle) (before : middle < high)
    (holds : condition middle = true) : Narrowed condition count low middle where
  ordered := reached
  bounded := before.le.trans narrowed.bounded
  before := narrowed.before
  after index late early := lasting middle index late early holds

/-- Where the condition fails in the middle, the lower half is done. -/
theorem Narrowed.upper (narrowed : Narrowed condition count low high)
    (lasting : Lasting condition count) (before : middle < high)
    (fails : condition middle = false) : Narrowed condition count (middle + 1) high where
  ordered := before
  bounded := narrowed.bounded
  before index early := by
    by_contra holds
    rw [Bool.not_eq_false] at holds
    have spread := lasting index middle (Nat.lt_succ_iff.1 early)
      (before.trans_le narrowed.bounded) holds
    rw [fails] at spread
    exact Bool.noConfusion spread
  after := narrowed.after

theorem Narrowed.met (narrowed : Narrowed condition count low high) (empty : ¬low < high) :
    Narrowed condition count low low := by
  have meet : high = low := le_antisymm (not_lt.1 empty) narrowed.ordered
  rw [meet] at narrowed
  exact narrowed

/-- With fuel for every index in the range, the search ends where the range is empty. -/
theorem least_from_narrowed (lasting : Lasting condition count) (fuel : Nat)
    (enough : high - low ≤ fuel) (narrowed : Narrowed condition count low high) :
    Narrowed condition count (leastFrom condition fuel low high)
      (leastFrom condition fuel low high) := by
  induction fuel generalizing low high with
  | zero => exact narrowed.met (by omega)
  | succ fuel ih =>
      -- Either half is shorter than the range, so one step of fuel less is enough for it.
      unfold leastFrom
      by_cases nonempty : low < high
      · rw [if_pos nonempty]
        dsimp only
        have reached : low ≤ (low + high) / 2 := by omega
        have before : (low + high) / 2 < high := by omega
        cases found : condition ((low + high) / 2) with
        | true =>
            rw [if_pos rfl]
            exact ih (by omega) (narrowed.lower lasting reached before found)
        | false =>
            rw [if_neg Bool.false_ne_true]
            exact ih (by omega) (narrowed.upper lasting before found)
      · rw [if_neg nonempty]
        exact narrowed.met nonempty

theorem least_narrowed (lasting : Lasting condition count) :
    Narrowed condition count (least count condition) (least count condition) :=
  least_from_narrowed lasting count (Nat.sub_le count 0) narrowed_whole

/-- Where the range is empty, the condition holds from there on and not before. -/
theorem Narrowed.holds_iff (narrowed : Narrowed condition count position position) {index : Nat}
    (bound : index < count) : condition index = true ↔ position ≤ index := by
  constructor
  · intro holds
    by_contra early
    rw [narrowed.before index (not_le.1 early)] at holds
    exact Bool.noConfusion holds
  · intro late
    exact narrowed.after index late bound

/-- The search finds the least index of a condition that lasts; if there is none below the count,
it finds the count. -/
theorem least_is_least (lasting : Lasting condition count) :
    IsLeast {index | index < count → condition index = true} (least count condition) := by
  have narrowed := least_narrowed lasting
  constructor
  · exact narrowed.after _ le_rfl
  · intro index holds
    by_contra early
    have bound : index < count := (not_le.1 early).trans_le narrowed.bounded
    exact early ((narrowed.holds_iff bound).1 (holds bound))

end Halving

/-- A test that every time passes from the first one on that does. -/
def Upward (test : Decimal → Bool) : Prop :=
  ∀ first second, first < second → test first = true → test second = true

theorem later_upward (time : Decimal) : Upward fun other => decide (time < other) := by
  intro first second ordered later
  rw [decide_eq_true_eq] at later ⊢
  exact later.trans ordered

theorem not_before_upward (time : Decimal) : Upward fun other => decide (time ≤ other) := by
  intro first second ordered notBefore
  rw [decide_eq_true_eq] at notBefore ⊢
  exact notBefore.trans ordered.le

theorem lasting_of_upward {timeList : List Decimal} {test : Decimal → Bool}
    (increasing : timeList.Pairwise (· < ·)) (upward : Upward test) :
    Lasting (fun index => test (timeList.getD index 0)) timeList.length := by
  intro first second ordered bound passes
  rcases Nat.eq_or_lt_of_le ordered with rfl | before
  · exact passes
  · have firstBound : first < timeList.length := before.trans bound
    have earlier : timeList.getD first 0 < timeList.getD second 0 := by
      have increases := List.pairwise_iff_getElem.1 increasing first second firstBound bound before
      simpa [List.getD_eq_getElem?_getD, firstBound, bound] using increases
    exact upward _ _ earlier passes

/-- The points before the index that is found fail the test, and all others pass it. -/
theorem points_parted {points : List Breakpoint} {test : Decimal → Bool} {position : Nat}
    (increasing : (times points).Pairwise (· < ·)) (upward : Upward test)
    (found : least points.length (fun index => test ((times points).getD index 0)) = position) :
    (∀ point ∈ points.take position, test point.time = false) ∧
      ∀ point ∈ points.drop position, test point.time = true := by
  have timeAt : ∀ (index : Nat) (bound : index < points.length),
      (times points).getD index 0 = points[index].time := by
    intro index bound
    simp [times, List.getD_eq_getElem?_getD, bound]
  have length : (times points).length = points.length := List.length_map _
  have lasting := lasting_of_upward increasing upward
  rw [length] at lasting
  have narrowed := least_narrowed lasting
  rw [found] at narrowed
  constructor
  · intro point member
    obtain ⟨index, bound, rfl⟩ := List.mem_take_iff_getElem.1 member
    rw [← timeAt index (by omega)]
    exact narrowed.before index (by omega)
  · intro point member
    obtain ⟨offset, bound, rfl⟩ := List.mem_drop_iff_getElem.1 member
    rw [← timeAt _ (by omega)]
    exact narrowed.after _ (Nat.le_add_right _ _) (by omega)

theorem bisect_eq_least_from (timeList : List Decimal) (time : Decimal) (fuel low high : Nat) :
    bisect timeList time fuel low high =
      leastFrom (fun index => decide (time < timeList.getD index 0)) fuel low high := by
  induction fuel generalizing low high with
  | zero => rfl
  | succ fuel ih =>
      unfold bisect leastFrom
      by_cases nonempty : low < high
      · rw [if_pos nonempty, if_pos nonempty]
        dsimp only
        by_cases notLater : timeList.getD ((low + high) / 2) 0 ≤ time
        · rw [if_pos notLater, if_neg (by simpa using notLater), ih]
        · rw [if_neg notLater, if_pos (by simpa using notLater), ih]
      · rw [if_neg nonempty, if_neg nonempty]

theorem last_at_most_eq_segment (timeList : List Decimal) (time : Decimal) :
    lastAtMost timeList time = segment timeList time := by
  unfold lastAtMost segment least
  rw [bisect_eq_least_from]

/-- The indices of the times that are not later than a given one. -/
def reached (timeList : List Decimal) (time : Decimal) : Set Nat :=
  {index | ∃ other ∈ timeList[index]?, other ≤ time}

section Lookup

variable {timeList : List Decimal} {time : Decimal}

/-- The times that are reached are those before the first later one. -/
theorem reached_eq (increasing : timeList.Pairwise (· < ·)) (time : Decimal) :
    reached timeList time =
      Set.Iio (least timeList.length fun index => decide (time < timeList.getD index 0)) := by
  have narrowed := least_narrowed (lasting_of_upward increasing (later_upward time))
  have passes : ∀ (index : Nat) (bound : index < timeList.length),
      (timeList[index] ≤ time ↔
        index < least timeList.length fun index => decide (time < timeList.getD index 0)) := by
    intro index bound
    rw [← not_le, ← narrowed.holds_iff bound]
    simp [List.getD_eq_getElem?_getD, bound]
  ext index
  rw [Set.mem_Iio]
  constructor
  · rintro ⟨other, found, notLater⟩
    obtain ⟨bound, rfl⟩ := List.getElem?_eq_some_iff.1 found
    exact (passes index bound).1 notLater
  · intro early
    have bound : index < timeList.length := early.trans_le narrowed.bounded
    exact ⟨timeList[index], List.getElem?_eq_getElem bound, (passes index bound).2 early⟩

/-- The segment of a time is that of the last time that is reached. -/
theorem segment_greatest (increasing : timeList.Pairwise (· < ·))
    (nonempty : (reached timeList time).Nonempty) :
    IsGreatest (reached timeList time) (segment timeList time) := by
  rw [reached_eq increasing] at nonempty ⊢
  obtain ⟨index, early⟩ := nonempty
  rw [Set.mem_Iio] at early
  unfold segment
  constructor
  · rw [Set.mem_Iio]
    omega
  · intro other before
    rw [Set.mem_Iio] at before
    omega

theorem segment_of_not_reached (increasing : timeList.Pairwise (· < ·))
    (early : 0 ∉ reached timeList time) : segment timeList time = 0 := by
  rw [reached_eq increasing, Set.mem_Iio] at early
  unfold segment
  omega

end Lookup

/-- A filter keeps the items in between if all items before them and after them fail its test. -/
theorem filter_between {Item : Type} {items : List Item} {test : Item → Bool} {first count : Nat}
    (early : ∀ item ∈ items.take first, test item = false)
    (between : ∀ item ∈ (items.drop first).take count, test item = true)
    (late : ∀ item ∈ (items.drop first).drop count, test item = false) :
    items.filter test = (items.drop first).take count := by
  have noneEarly : (items.take first).filter test = [] :=
    List.filter_eq_nil_iff.2 fun item member => Bool.eq_false_iff.1 (early item member)
  have noneLate : ((items.drop first).drop count).filter test = [] :=
    List.filter_eq_nil_iff.2 fun item member => Bool.eq_false_iff.1 (late item member)
  calc items.filter test
      = (items.take first ++ ((items.drop first).take count ++
          (items.drop first).drop count)).filter test := by
        rw [List.take_append_drop, List.take_append_drop]
    _ = (items.drop first).take count := by
        rw [List.filter_append, List.filter_append, noneEarly, noneLate,
          List.filter_eq_self.2 between, List.nil_append, List.append_nil]

/-- A cut keeps exactly the breakpoints strictly between its ends, in their order. -/
theorem inside_eq_filter {points : List Breakpoint} (increasing : (times points).Pairwise (· < ·))
    (start stop : Decimal) :
    inside points start stop =
      (points.filter fun point => start < point.time ∧ point.time < stop).map
        (·.shift (-start)) := by
  unfold inside
  dsimp only
  generalize firstFound : (least points.length fun index =>
    decide (start < (times points).getD index 0)) = first
  generalize lastFound : (least points.length fun index =>
    decide (stop ≤ (times points).getD index 0)) = last
  obtain ⟨notStarted, started⟩ := points_parted increasing (later_upward start) firstFound
  obtain ⟨notStopped, stopped⟩ := points_parted increasing (not_before_upward stop) lastFound
  simp only [decide_eq_false_iff_not, decide_eq_true_eq] at notStarted started notStopped stopped
  rw [filter_between]
  · intro point member
    simp [notStarted point member]
  · intro point member
    have beforeStop : point ∈ points.take last := by
      rw [← List.drop_take] at member
      exact List.mem_of_mem_drop member
    simp [started point (List.mem_of_mem_take member), not_le.1 (notStopped point beforeStop)]
  · intro point member
    have afterStop : point ∈ points.drop last := by
      rw [List.drop_drop] at member
      exact List.drop_subset_drop_left points (by omega) member
    simp [stopped point afterStop]

theorem inside_empty {points : List Breakpoint} (increasing : (times points).Pairwise (· < ·))
    (time : Decimal) : inside points time time = [] := by
  rw [inside_eq_filter increasing, List.map_eq_nil_iff, List.filter_eq_nil_iff]
  intro point _ between
  rw [decide_eq_true_eq] at between
  exact lt_asymm between.1 between.2

theorem union_nil (left : List Decimal) : union left [] = left := by
  induction left with
  | nil => rfl
  | cons first rest ih =>
      change first :: union rest [] = first :: rest
      rw [ih]

section Merging

variable {first other : Decimal} {rest others : List Decimal}

theorem union_cons_cons (first other : Decimal) (rest others : List Decimal) :
    union (first :: rest) (other :: others) =
      if first < other then first :: union rest (other :: others)
      else if other < first then other :: union (first :: rest) others
      else first :: union rest others :=
  rfl

theorem union_left_first (before : first < other) :
    union (first :: rest) (other :: others) = first :: union rest (other :: others) := by
  rw [union_cons_cons, if_pos before]

theorem union_right_first (before : other < first) :
    union (first :: rest) (other :: others) = other :: union (first :: rest) others := by
  rw [union_cons_cons, if_neg (lt_asymm before), if_pos before]

theorem union_both_first (time : Decimal) (rest others : List Decimal) :
    union (time :: rest) (time :: others) = time :: union rest others := by
  rw [union_cons_cons, if_neg (lt_irrefl time), if_neg (lt_irrefl time)]

end Merging

/-- Two lists are taken apart as they are merged: by the earlier of their first times, or by both
where these are equal. -/
theorem merging_induction {motive : List Decimal → List Decimal → Prop}
    (noneLeft : ∀ right, motive [] right)
    (noneRight : ∀ left, motive left [])
    (leftFirst : ∀ first rest other others, first < other → motive rest (other :: others) →
      motive (first :: rest) (other :: others))
    (rightFirst : ∀ first rest other others, other < first → motive (first :: rest) others →
      motive (first :: rest) (other :: others))
    (bothFirst : ∀ time rest others, motive rest others → motive (time :: rest) (time :: others))
    (left right : List Decimal) : motive left right := by
  induction left generalizing right with
  | nil => exact noneLeft right
  | cons first rest leftRest =>
      induction right with
      | nil => exact noneRight (first :: rest)
      | cons other others rightRest =>
          rcases lt_trichotomy first other with before | rfl | after
          · exact leftFirst first rest other others before (leftRest (other :: others))
          · exact bothFirst first rest others (leftRest others)
          · exact rightFirst first rest other others after rightRest

theorem mem_union (left right : List Decimal) (time : Decimal) :
    time ∈ union left right ↔ time ∈ left ∨ time ∈ right := by
  induction left, right using merging_induction with
  | noneLeft right => simp [union]
  | noneRight left => simp [union_nil]
  | leftFirst first rest other others before ih =>
      rw [union_left_first before, List.mem_cons, List.mem_cons, ih, or_assoc]
  | rightFirst first rest other others before ih =>
      rw [union_right_first before, List.mem_cons, ih]
      simp only [List.mem_cons]
      exact or_left_comm
  | bothFirst same rest others ih =>
      rw [union_both_first, List.mem_cons, List.mem_cons, List.mem_cons, ih, or_or_distrib_left]

theorem union_increasing (left right : List Decimal) (leftIncreasing : left.Pairwise (· < ·))
    (rightIncreasing : right.Pairwise (· < ·)) : (union left right).Pairwise (· < ·) := by
  induction left, right using merging_induction with
  | noneLeft right => exact rightIncreasing
  | noneRight left =>
      rw [union_nil]
      exact leftIncreasing
  | leftFirst first rest other others before ih =>
      obtain ⟨firstLeast, restIncreasing⟩ := List.pairwise_cons.1 leftIncreasing
      obtain ⟨otherLeast, _⟩ := List.pairwise_cons.1 rightIncreasing
      rw [union_left_first before, List.pairwise_cons]
      refine ⟨fun time member => ?_, ih restIncreasing rightIncreasing⟩
      rw [mem_union, List.mem_cons] at member
      rcases member with inRest | rfl | inOthers
      · exact firstLeast time inRest
      · exact before
      · exact before.trans (otherLeast time inOthers)
  | rightFirst first rest other others before ih =>
      obtain ⟨firstLeast, _⟩ := List.pairwise_cons.1 leftIncreasing
      obtain ⟨otherLeast, othersIncreasing⟩ := List.pairwise_cons.1 rightIncreasing
      rw [union_right_first before, List.pairwise_cons]
      refine ⟨fun time member => ?_, ih leftIncreasing othersIncreasing⟩
      rw [mem_union, List.mem_cons] at member
      rcases member with (rfl | inRest) | inOthers
      · exact before
      · exact before.trans (firstLeast time inRest)
      · exact otherLeast time inOthers
  | bothFirst same rest others ih =>
      obtain ⟨leftLeast, restIncreasing⟩ := List.pairwise_cons.1 leftIncreasing
      obtain ⟨rightLeast, othersIncreasing⟩ := List.pairwise_cons.1 rightIncreasing
      rw [union_both_first, List.pairwise_cons]
      refine ⟨fun time member => ?_, ih restIncreasing othersIncreasing⟩
      rw [mem_union] at member
      rcases member with inRest | inOthers
      · exact leftLeast time inRest
      · exact rightLeast time inOthers

/-- Merging gives the one increasing list of all times of both lists. -/
theorem union_eq_iff {left right : List Decimal} (leftIncreasing : left.Pairwise (· < ·))
    (rightIncreasing : right.Pairwise (· < ·)) (merged : List Decimal) :
    union left right = merged ↔
      merged.Pairwise (· < ·) ∧ ∀ time, time ∈ merged ↔ time ∈ left ∨ time ∈ right := by
  have increasing := union_increasing left right leftIncreasing rightIncreasing
  constructor
  · rintro rfl
    exact ⟨increasing, mem_union left right⟩
  · rintro ⟨mergedIncreasing, members⟩
    apply List.Pairwise.eq_of_mem_iff increasing mergedIncreasing
    intro time
    rw [mem_union, members]

end Analog.Breakpoints
