import Mathlib.Logic.Relation
import Analog.Proofs.Neighbours

/-!
# Series with fewer breakpoints

A breakpoint between two others of the same value can be left out: the series has the same
value at every time, and goes on to have it when all values are changed alike or other series
are put before and behind it. This does not hold of any two series with the same values,
since values between breakpoints are rounded.
-/

set_option autoImplicit false

namespace Analog.Breakpoints

section ValueOn

variable {Value : Type} [Zero Value] (line : Breakpoint → Breakpoint → Decimal → Value)
  (own : Breakpoint → Value)

/-- The value on the lines through some points; after the last point it is that point's own. -/
def valueOn : List Breakpoint → Decimal → Value
  | [], _ => 0
  | [point], _ => own point
  | first :: second :: rest, time =>
    if time < second.time then line first second time else valueOn (second :: rest) time

theorem value_on_cons (first second : Breakpoint) (rest : List Breakpoint) (time : Decimal) :
    valueOn line own (first :: second :: rest) time =
      if time < second.time then line first second time
      else valueOn line own (second :: rest) time :=
  rfl

theorem value_on_segment {points : List Breakpoint} {index : Nat} {first second : Breakpoint}
    {time : Decimal} (increasing : points.Pairwise fun one other => one.time < other.time)
    (firstAt : points[index]? = some first) (secondAt : points[index + 1]? = some second)
    (started : first.time ≤ time) (before : time < second.time) :
    valueOn line own points time = line first second time := by
  induction points generalizing index with
  | nil => simp at firstAt
  | cons point rest ih =>
      obtain ⟨_, restIncreasing⟩ := List.pairwise_cons.1 increasing
      cases index with
      | zero =>
          rw [List.getElem?_cons_zero, Option.some.injEq] at firstAt
          rw [List.getElem?_cons_succ] at secondAt
          obtain ⟨after, rfl⟩ : ∃ after, rest = second :: after := by
            cases rest with
            | nil => simp at secondAt
            | cons next after => exact ⟨after, by simpa using secondAt⟩
          rw [value_on_cons, if_pos before, firstAt]
      | succ index =>
          rw [List.getElem?_cons_succ] at firstAt secondAt
          cases rest with
          | nil => simp at firstAt
          | cons next after =>
              have notLater : next.time ≤ first.time := by
                rcases List.mem_cons.1 (List.mem_of_getElem? firstAt) with rfl | later
                · exact le_rfl
                · exact ((List.pairwise_cons.1 restIncreasing).1 first later).le
              rw [value_on_cons, if_neg (not_lt.2 (notLater.trans started))]
              exact ih restIncreasing firstAt secondAt

theorem value_on_last {before : List Breakpoint} {last : Breakpoint} {time : Decimal}
    (increasing : (before ++ [last]).Pairwise fun one other => one.time < other.time)
    (reached : last.time ≤ time) : valueOn line own (before ++ [last]) time = own last := by
  induction before with
  | nil => rfl
  | cons point rest ih =>
      obtain ⟨_, restIncreasing⟩ := List.pairwise_cons.1 increasing
      cases rest with
      | nil =>
          rw [List.singleton_append, value_on_cons, if_neg (not_lt.2 reached)]
          rfl
      | cons next after =>
          have earlier : next.time < last.time :=
            (List.pairwise_cons.1 restIncreasing).1 last (by simp)
          rw [List.cons_append, List.cons_append, value_on_cons,
            if_neg (not_lt.2 (earlier.le.trans reached))]
          exact ih restIncreasing

end ValueOn

theorem on_line_level {first second : Breakpoint} (level : first.value = second.value)
    (ordered : first.time < second.time) (time : Decimal) :
    onLine first second time = first.value := by
  unfold onLine
  rw [level, sub_self, zero_mul, Decimal.zero_div _ (sub_pos.2 ordered).ne', Option.getD_some,
    add_zero]

end Analog.Breakpoints

namespace Analog.LinearSeries

open Breakpoints

theorem eval_eq_value_on {series : LinearSeries} (formed : WellFormed series.points)
    {time : Decimal} (nonneg : 0 ≤ time) (reached : time ≤ series.duration) :
    series.eval time = valueOn onLine (·.value) series.points time := by
  obtain ⟨current, found, holds⟩ := holds_segment series.points formed time nonneg
  unfold eval
  rw [if_neg (by simpa using ⟨nonneg, reached⟩)]
  dsimp only
  rw [found]
  cases next : series.points[segment (times series.points) time + 1]? with
  | some following =>
      obtain ⟨inside, currentAt⟩ := List.getElem?_eq_some_iff.1 found
      obtain ⟨nextInside, followingAt⟩ := List.getElem?_eq_some_iff.1 next
      have ordered := List.pairwise_iff_getElem.1 formed.increasing _ _ inside nextInside
        (Nat.lt_succ_self _)
      rw [currentAt, followingAt] at ordered
      have later : time < following.time := by
        by_contra notLater
        have latest := holds.latest following (List.mem_of_getElem? next) (not_lt.1 notLater)
        exact absurd ordered (not_lt.2 latest)
      exact (value_on_segment onLine (·.value) formed.increasing found next holds.notLater
        later).symm
  | none =>
      -- There is no later point, so the one that holds is the last.
      obtain ⟨before, last, same, _⟩ := formed.split_last
      obtain ⟨inside, _⟩ := List.getElem?_eq_some_iff.1 found
      rw [List.getElem?_eq_none_iff] at next
      have isLast : segment (times series.points) time = series.points.length - 1 := by omega
      rw [isLast, ← List.getLast?_eq_getElem?, same, List.getLast?_concat, Option.some.injEq]
        at found
      have increasing := formed.increasing
      rw [same] at increasing ⊢
      rw [value_on_last onLine (·.value) increasing (found ▸ holds.notLater), List.getLast?_concat]
      rfl

end Analog.LinearSeries

namespace Analog.Breakpoints

/-- One point between two of its own value is left out. -/
inductive Drops : List Breakpoint → List Breakpoint → Prop where
  | between {first middle last : Breakpoint} (before after : List Breakpoint)
      (rises : first.value = middle.value) (falls : middle.value = last.value) :
      Drops (before ++ first :: middle :: last :: after) (before ++ first :: last :: after)

def Thins : List Breakpoint → List Breakpoint → Prop :=
  Relation.ReflTransGen Drops

variable {full thin : List Breakpoint}

theorem Drops.well_formed (drops : Drops full thin) (formed : WellFormed full) :
    WellFormed thin := by
  obtain ⟨before, after, _, _⟩ := drops
  refine ⟨?_, formed.increasing.sublist ?_⟩
  · have starts := formed.starts
    cases before with
    | nil => exact starts
    | cons point rest => exact starts
  · exact (List.Sublist.refl before).append ((List.sublist_cons_self _ _).cons_cons _)

theorem Drops.duration_eq (drops : Drops full thin) : duration thin = duration full := by
  obtain ⟨before, after, _, _⟩ := drops
  simp [duration, List.getLast?_append]

section Level

variable {Value : Type} [Zero Value] {line : Breakpoint → Breakpoint → Decimal → Value}
  {own : Breakpoint → Value}

/-- The point that is left out lies on the line between its neighbours. -/
theorem Drops.value_on_eq
    (level : ∀ one other : Breakpoint, one.value = other.value → one.time < other.time →
      ∀ time, line one other time = own one)
    (sameOwn : ∀ one other : Breakpoint, one.value = other.value → own one = own other)
    (drops : Drops full thin)
    (increasing : full.Pairwise fun one other => one.time < other.time) (time : Decimal) :
    valueOn line own thin time = valueOn line own full time := by
  obtain @⟨first, middle, last, before, after, rises, falls⟩ := drops
  induction before with
  | nil =>
      obtain ⟨firstEarliest, others⟩ := List.pairwise_cons.1 increasing
      have firstToMiddle : first.time < middle.time := firstEarliest middle (by simp)
      have middleToLast : middle.time < last.time := (List.pairwise_cons.1 others).1 last (by simp)
      simp only [List.nil_append, valueOn]
      rw [level _ _ (rises.trans falls) (firstToMiddle.trans middleToLast),
        level _ _ rises firstToMiddle, level _ _ falls middleToLast, sameOwn _ _ rises]
      by_cases early : time < middle.time
      · rw [if_pos early, if_pos (early.trans middleToLast)]
      · rw [if_neg early]
  | cons point rest ih =>
      obtain ⟨_, restIncreasing⟩ := List.pairwise_cons.1 increasing
      have kept := ih restIncreasing
      cases rest with
      | nil =>
          simp only [List.cons_append, List.nil_append] at kept ⊢
          rw [value_on_cons _ _ point first, value_on_cons _ _ point first, kept]
      | cons next others =>
          simp only [List.cons_append] at kept ⊢
          rw [value_on_cons _ _ point next, value_on_cons _ _ point next, kept]

end Level

theorem Drops.map {f : Breakpoint → Breakpoint}
    (values : ∀ one other : Breakpoint, one.value = other.value → (f one).value = (f other).value)
    (drops : Drops full thin) : Drops (full.map f) (thin.map f) := by
  obtain @⟨first, middle, last, before, after, rises, falls⟩ := drops
  simp only [List.map_append, List.map_cons]
  exact .between _ _ (values first middle rises) (values middle last falls)

theorem Drops.append_left (before : List Breakpoint) (drops : Drops full thin) :
    Drops (before ++ full) (before ++ thin) := by
  obtain ⟨earlier, after, rises, falls⟩ := drops
  rw [← List.append_assoc, ← List.append_assoc]
  exact .between _ _ rises falls

theorem Drops.append_right (after : List Breakpoint) (drops : Drops full thin) :
    Drops (full ++ after) (thin ++ after) := by
  obtain ⟨before, later, rises, falls⟩ := drops
  simp only [List.append_assoc, List.cons_append]
  exact .between _ _ rises falls

namespace Thins

theorem refl (points : List Breakpoint) : Thins points points :=
  Relation.ReflTransGen.refl

theorem trans {thinner : List Breakpoint} (one : Thins full thin) (two : Thins thin thinner) :
    Thins full thinner :=
  Relation.ReflTransGen.trans one two

theorem well_formed (thins : Thins full thin) (formed : WellFormed full) : WellFormed thin := by
  induction thins with
  | refl => exact formed
  | tail _ drops ih => exact drops.well_formed ih

theorem duration_eq (thins : Thins full thin) : duration thin = duration full := by
  induction thins with
  | refl => rfl
  | tail _ drops ih => exact drops.duration_eq.trans ih

theorem value_on_eq {Value : Type} [Zero Value] {line : Breakpoint → Breakpoint → Decimal → Value}
    {own : Breakpoint → Value}
    (level : ∀ one other : Breakpoint, one.value = other.value → one.time < other.time →
      ∀ time, line one other time = own one)
    (sameOwn : ∀ one other : Breakpoint, one.value = other.value → own one = own other)
    (thins : Thins full thin) (formed : WellFormed full) (time : Decimal) :
    valueOn line own thin time = valueOn line own full time := by
  induction thins with
  | refl => rfl
  | tail earlier drops ih =>
      have formedSoFar := well_formed earlier formed
      exact (drops.value_on_eq level sameOwn formedSoFar.increasing time).trans ih

theorem map {f : Breakpoint → Breakpoint}
    (values : ∀ one other : Breakpoint, one.value = other.value → (f one).value = (f other).value)
    (thins : Thins full thin) : Thins (full.map f) (thin.map f) :=
  Relation.ReflTransGen.lift (List.map f) (fun _ _ => Drops.map values) _ _ thins

theorem append_left (before : List Breakpoint) (thins : Thins full thin) :
    Thins (before ++ full) (before ++ thin) :=
  Relation.ReflTransGen.lift (before ++ ·) (fun _ _ => Drops.append_left before) _ _ thins

theorem append_right (after : List Breakpoint) (thins : Thins full thin) :
    Thins (full ++ after) (thin ++ after) :=
  Relation.ReflTransGen.lift (· ++ after) (fun _ _ => Drops.append_right after) _ _ thins

/-- Of points that all have one value only the first and the last are needed. -/
theorem level {value : Decimal} (first last : Breakpoint) (inner : List Breakpoint)
    (each : ∀ point ∈ first :: inner ++ [last], point.value = value) :
    Thins (first :: inner ++ [last]) [first, last] := by
  induction inner with
  | nil => exact refl _
  | cons point rest ih =>
      have restThins := ih fun other member => each other (by
        simp only [List.cons_append, List.mem_cons] at member ⊢
        tauto)
      refine Relation.ReflTransGen.head ?_ restThins
      have sameAs : ∀ other ∈ first :: point :: rest ++ [last], first.value = other.value :=
        fun other member => (each first (by simp)).trans (each other member).symm
      cases rest with
      | nil =>
          exact .between [] [] (sameAs point (by simp))
            ((sameAs point (by simp)).symm.trans (sameAs last (by simp)))
      | cons next after =>
          exact .between [] (after ++ [last]) (sameAs point (by simp))
            ((sameAs point (by simp)).symm.trans (sameAs next (by simp)))

end Thins

end Analog.Breakpoints

namespace Analog.LinearSeries

open Breakpoints

/-- A series with fewer breakpoints has the same value at every time. -/
theorem eval_eq_of_thins {series thinned : LinearSeries} (formed : WellFormed series.points)
    (thins : Thins series.points thinned.points) (time : Decimal) :
    thinned.eval time = series.eval time := by
  have lasts : thinned.duration = series.duration := thins.duration_eq
  by_cases inside : 0 ≤ time ∧ time ≤ series.duration
  · rw [eval_eq_value_on formed inside.1 inside.2,
      eval_eq_value_on (thins.well_formed formed) inside.1 (lasts ▸ inside.2),
      thins.value_on_eq (fun _ _ => on_line_level) (fun _ _ same => same) formed]
  · rw [not_and_or, not_le, not_le] at inside
    unfold eval
    rw [lasts, if_pos (by simpa using inside), if_pos (by simpa using inside)]

/-- A well-formed series that does not end where it begins. -/
structure Lasts (series : LinearSeries) : Prop where
  formed : WellFormed series.points
  positive : 0 < series.duration

theorem spans_of_formed {series : LinearSeries} (formed : WellFormed series.points) :
    Spans series series.duration (series.eval 0) (series.eval series.duration) := by
  obtain ⟨first, rest, startSame⟩ := formed.split_first
  obtain ⟨before, last, stopSame, lastTime⟩ := formed.split_last
  have startMember : (⟨0, first⟩ : Breakpoint) ∈ series.points := by simp [startSame]
  have stopMember : last ∈ series.points := by simp [stopSame]
  have lasts : last.time = series.duration := lastTime
  refine ⟨formed, rfl, ?_, ?_⟩
  · have starts : series.eval 0 = first := eval_of_mem formed startMember
    rwa [starts]
  · rwa [← lasts, eval_of_mem formed stopMember]

theorem map_lasts {series : LinearSeries} (lasts : Lasts series) (f : Decimal → Decimal) :
    Lasts (series.map f) := by
  have spans := map_spans f (spans_of_formed lasts.formed)
  refine ⟨spans.formed, ?_⟩
  rw [spans.lasts]
  exact lasts.positive

theorem map_map (series : LinearSeries) (f g : Decimal → Decimal) :
    (series.map f).map g = series.map fun value => g (f value) := by
  simp [map, mapValues, Function.comp_def]

theorem map_id (series : LinearSeries) : (series.map fun value => value) = series := by
  simp [map, mapValues]

theorem map_line (length first last : Decimal) (f : Decimal → Decimal) :
    (line length first last).map f = line length (f first) (f last) := by
  unfold line
  split_ifs <;> rfl

section Joined

variable {first second third : LinearSeries}

def followedBy (first second : LinearSeries) : LinearSeries :=
  ⟨joined first.points second.points⟩

theorem append_iff_meet {whole : LinearSeries} (firstFormed : WellFormed first.points)
    (secondFormed : WellFormed second.points) :
    first.append second = .ok whole ↔ Meet first second ∧ whole = first.followedBy second :=
  append_ok_iff (spans_of_formed firstFormed) (spans_of_formed secondFormed) whole

theorem followed_by_spans (firstLasts : Lasts first) (secondLasts : Lasts second) :
    Spans (first.followedBy second) (first.duration + second.duration) (first.eval 0)
      (second.eval second.duration) :=
  append_spans (spans_of_formed firstLasts.formed) (spans_of_formed secondLasts.formed)
    firstLasts.positive

theorem followed_by_lasts (firstLasts : Lasts first) (secondLasts : Lasts second) :
    Lasts (first.followedBy second) := by
  have spans := followed_by_spans firstLasts secondLasts
  refine ⟨spans.formed, ?_⟩
  rw [spans.lasts]
  exact add_pos firstLasts.positive secondLasts.positive

theorem meet_followed_by_iff (firstLasts : Lasts first) (secondLasts : Lasts second)
    (before : LinearSeries) : Meet before (first.followedBy second) ↔ Meet before first := by
  unfold Meet
  rw [(followed_by_spans firstLasts secondLasts).eval_start]

theorem followed_by_meet_iff (firstLasts : Lasts first) (secondLasts : Lasts second)
    (after : LinearSeries) : Meet (first.followedBy second) after ↔ Meet second after := by
  have spans := followed_by_spans firstLasts secondLasts
  unfold Meet
  rw [spans.lasts, spans.eval_stop]

theorem followed_by_assoc (secondLasts : Lasts second) :
    (first.followedBy second).followedBy third = first.followedBy (second.followedBy third) :=
  congrArg LinearSeries.mk (joined_assoc secondLasts.formed)

/-- Where two series meet, the second one repeats the last point of the first. -/
theorem followed_by_points (firstFormed : WellFormed first.points)
    (secondFormed : WellFormed second.points) (meets : Meet first second) :
    (first.followedBy second).points =
      first.points ++ second.points.tail.map (·.shift first.duration) := by
  obtain ⟨before, firstSame⟩ := (spans_of_formed firstFormed).split_last
  obtain ⟨rest, secondSame⟩ := (spans_of_formed secondFormed).split_first
  have rejoined : first.points.dropLast ++ [⟨first.duration, first.eval first.duration⟩] =
      first.points := by
    rw [firstSame, List.dropLast_concat]
  have lasts : Breakpoints.duration first.points = first.duration := rfl
  unfold followedBy joined
  rw [lasts, secondSame, ← meets, List.tail_cons, List.map_cons, Breakpoint.shift, zero_add,
    List.append_cons, rejoined]

end Joined

def ThinsTo (series thinned : LinearSeries) : Prop :=
  Thins series.points thinned.points

section ThinsTo

variable {first second thinned thinned' : LinearSeries}

theorem ThinsTo.refl (series : LinearSeries) : ThinsTo series series :=
  Thins.refl series.points

theorem ThinsTo.trans (one : ThinsTo first second) (two : ThinsTo second thinned) :
    ThinsTo first thinned :=
  Thins.trans one two

theorem ThinsTo.lasts (thins : ThinsTo first thinned) (lasts : Lasts first) : Lasts thinned := by
  refine ⟨thins.well_formed lasts.formed, ?_⟩
  have sameDuration : thinned.duration = first.duration := thins.duration_eq
  rw [sameDuration]
  exact lasts.positive

theorem ThinsTo.map (thins : ThinsTo first thinned) (f : Decimal → Decimal) :
    ThinsTo (first.map f) (thinned.map f) :=
  Thins.map (fun _ _ same => congrArg f same) thins

theorem ThinsTo.meet (thins : ThinsTo first thinned) (thins' : ThinsTo second thinned')
    (lasts : Lasts first) (lasts' : Lasts second) (meets : Meet first second) :
    Meet thinned thinned' := by
  have sameDuration : thinned.duration = first.duration := thins.duration_eq
  unfold Meet
  rw [sameDuration, eval_eq_of_thins lasts.formed thins, eval_eq_of_thins lasts'.formed thins']
  exact meets

theorem ThinsTo.followed_by (thins : ThinsTo first thinned) (thins' : ThinsTo second thinned')
    (lasts : Lasts first) (lasts' : Lasts second) (meets : Meet first second) :
    ThinsTo (first.followedBy second) (thinned.followedBy thinned') := by
  have sameDuration : thinned.duration = first.duration := thins.duration_eq
  have laterThins : ThinsTo (first.followedBy second) (first.followedBy thinned') :=
    Thins.append_left _ (Thins.map (fun _ _ same => same) thins')
  have stillMeets := (ThinsTo.refl first).meet thins' lasts lasts' meets
  have thinnedLasts := thins'.lasts lasts'
  refine laterThins.trans ?_
  unfold ThinsTo
  rw [followed_by_points lasts.formed thinnedLasts.formed stillMeets,
    followed_by_points (thins.lasts lasts).formed thinnedLasts.formed
      (thins.meet (ThinsTo.refl thinned') lasts thinnedLasts stillMeets), sameDuration]
  exact Thins.append_right _ thins

def Level (series : LinearSeries) (value : Decimal) : Prop :=
  ∀ point ∈ series.points, point.value = value

theorem line_is_level (length value : Decimal) : Level (line length value value) value := by
  intro point member
  unfold line at member
  split_ifs at member <;> simp at member <;> grind

theorem followed_by_level {value : Decimal} (firstLevel : Level first value)
    (secondLevel : Level second value) : Level (first.followedBy second) value := by
  intro point member
  rcases List.mem_append.1 member with early | late
  · exact firstLevel point ((List.dropLast_subset _) early)
  · obtain ⟨original, originalMember, rfl⟩ := List.mem_map.1 late
    exact secondLevel original originalMember

theorem thins_to_line {series : LinearSeries} {value : Decimal} (lasts : Lasts series)
    (each : Level series value) : ThinsTo series (line series.duration value value) := by
  have spans := spans_of_formed lasts.formed
  obtain ⟨rest, startSame⟩ := spans.split_first
  obtain ⟨before, stopSame⟩ := spans.split_last
  have startValue : series.eval 0 = value := each _ spans.startPoint
  have stopValue : series.eval series.duration = value := each _ spans.stopPoint
  unfold line
  rw [if_neg (by simpa using lasts.positive.ne')]
  cases before with
  | nil =>
      -- A single point would leave no duration.
      rw [stopSame, List.nil_append, List.cons.injEq, Breakpoint.mk.injEq] at startSame
      exact absurd startSame.1.1 lasts.positive.ne'
  | cons point inner =>
      have isFirst : point = ⟨0, value⟩ := by
        rw [stopSame, List.cons_append, List.cons.injEq, startValue] at startSame
        exact startSame.1
      rw [isFirst, stopValue] at stopSame
      unfold Level at each
      unfold ThinsTo
      rw [stopSame] at each ⊢
      exact Thins.level _ _ inner each

end ThinsTo

/-- Series that meet, one after the other. -/
inductive Strung : List LinearSeries → LinearSeries → Prop where
  | single (series : LinearSeries) : Strung [series] series
  | cons {first later : LinearSeries} {rest : List LinearSeries} (others : Strung rest later)
      (meets : Meet first later) : Strung (first :: rest) (first.followedBy later)

section Strung

variable {first second whole : LinearSeries} {before after rest : List LinearSeries}

theorem Strung.lasts (strung : Strung rest whole) (each : ∀ series ∈ rest, Lasts series) :
    Lasts whole := by
  induction strung with
  | single series => exact each series (by simp)
  | cons _ _ ih =>
      exact followed_by_lasts (each _ (by simp)) (ih fun other member => each other (by simp [member]))

theorem Strung.append (firstStrung : Strung before first) (secondStrung : Strung after second)
    (beforeLast : ∀ series ∈ before, Lasts series) (afterLast : ∀ series ∈ after, Lasts series)
    (meets : Meet first second) : Strung (before ++ after) (first.followedBy second) := by
  have secondLasts := secondStrung.lasts afterLast
  induction firstStrung with
  | single series => exact .cons secondStrung meets
  | @cons head later rest others headMeets ih =>
      obtain ⟨headLasts, restLast⟩ := List.forall_mem_cons.1 beforeLast
      have laterLasts := others.lasts restLast
      rw [followed_by_assoc laterLasts]
      rw [followed_by_meet_iff headLasts laterLasts] at meets
      refine .cons (ih restLast meets) ?_
      rwa [meet_followed_by_iff laterLasts secondLasts]

theorem Strung.split (strung : Strung (before ++ after) whole) (beforeFilled : before ≠ [])
    (afterFilled : after ≠ []) (each : ∀ series ∈ before ++ after, Lasts series) :
    ∃ first second, Strung before first ∧ Strung after second ∧ Meet first second ∧
      whole = first.followedBy second := by
  induction before generalizing whole with
  | nil => exact absurd rfl beforeFilled
  | cons head rest ih =>
      obtain ⟨headLasts, othersLast⟩ := List.forall_mem_cons.1 each
      obtain ⟨later, others, meets, rfl⟩ : ∃ later, Strung (rest ++ after) later ∧
          Meet head later ∧ whole = head.followedBy later := by
        rw [List.cons_append] at strung
        generalize same : rest ++ after = others at strung
        cases strung with
        | single => exact absurd (List.append_eq_nil_iff.1 same).2 afterFilled
        | cons others meets => exact ⟨_, same ▸ others, meets, rfl⟩
      rcases eq_or_ne rest [] with rfl | restFilled
      · exact ⟨head, later, .single head, others, meets, rfl⟩
      obtain ⟨first, second, firstStrung, secondStrung, middle, rfl⟩ :=
        ih others restFilled othersLast
      have firstLasts := firstStrung.lasts fun series member => othersLast series (by simp [member])
      have secondLasts := secondStrung.lasts fun series member =>
        othersLast series (by simp [member])
      rw [meet_followed_by_iff firstLasts secondLasts] at meets
      refine ⟨head.followedBy first, second, .cons firstStrung meets, secondStrung, ?_, ?_⟩
      · rwa [followed_by_meet_iff headLasts firstLasts]
      · rw [followed_by_assoc firstLasts]

/-- The first two of several series may be put together before the others follow. -/
theorem strung_pair_iff (firstLasts : Lasts first) (secondLasts : Lasts second)
    (each : ∀ series ∈ rest, Lasts series) :
    Strung (first :: second :: rest) whole ↔
      Meet first second ∧ Strung (first.followedBy second :: rest) whole := by
  constructor
  · intro strung
    cases strung with
    | cons others meets =>
        cases others with
        | single => exact ⟨meets, .single _⟩
        | cons later laterMeets =>
            have laterLasts := later.lasts each
            rw [meet_followed_by_iff secondLasts laterLasts] at meets
            rw [← followed_by_assoc secondLasts]
            refine ⟨meets, .cons later ?_⟩
            rwa [followed_by_meet_iff firstLasts secondLasts]
  · rintro ⟨meets, strung⟩
    have pair : Strung [first, second] (first.followedBy second) := .cons (.single second) meets
    cases strung with
    | single => exact pair
    | cons others othersMeet =>
        exact pair.append others (by simpa using ⟨firstLasts, secondLasts⟩) each othersMeet

/-- Series that last are strung exactly when they can be joined from left to right. -/
theorem concatenate_iff_strung (lasts : Lasts first) (each : ∀ series ∈ rest, Lasts series) :
    concatenate (some first) (rest.map some) = .ok (some whole) ↔ Strung (first :: rest) whole := by
  induction rest generalizing first with
  | nil =>
      rw [List.map_nil, concatenate, Except.ok.injEq, Option.some.injEq]
      constructor
      · rintro rfl
        exact .single first
      · intro strung
        cases strung with
        | single => rfl
        | cons others _ => cases others
  | cons part others ih =>
      obtain ⟨partLasts, othersLast⟩ := List.forall_mem_cons.1 each
      rw [List.map_cons, concatenate_cons, if_neg (by simpa using partLasts.positive.ne'),
        if_neg (by simpa using lasts.positive.ne'), Outcome.bind_ok_iff]
      simp only [append_iff_meet lasts.formed partLasts.formed]
      rw [strung_pair_iff lasts partLasts othersLast,
        ← ih (followed_by_lasts lasts partLasts) othersLast]
      constructor
      · rintro ⟨_, ⟨meets, rfl⟩, joins⟩
        exact ⟨meets, joins⟩
      · rintro ⟨meets, joins⟩
        exact ⟨_, ⟨meets, rfl⟩, joins⟩

end Strung

end Analog.LinearSeries
