import Analog.Proofs.EqualSeries
import Analog.Proofs.LoweredSeries
import Analog.Proofs.ThinnedSeries

/-!
# Appends among the parts of appends

The series of an append is joined from left to right. Parts without duration leave no trace beside
others, and each part of a constant series changes the end of those before it. It makes no
difference all the same which parts are joined first, so an append among the parts can be replaced
by its own parts.
-/

set_option autoImplicit false

namespace Analog

open Breakpoints

namespace Breakpoints

/-- What is joined to a series takes the place of its last value. -/
theorem joined_flat_tail (first second : List Breakpoint) :
    joined (flatTail first) second = joined first second := by
  rcases last_pair_cases first with rfl | ⟨point, rfl⟩ | ⟨before, next, last, rfl⟩
  · rfl
  · rfl
  · rw [flat_tail_pair]
    simp [joined, duration, List.dropLast_append_of_ne_nil]

/-- The end of a part that is joined at the end need not be flat before. -/
theorem flat_tail_joined (first second : List Breakpoint) :
    flatTail (joined first (flatTail second)) = flatTail (joined first second) := by
  rcases last_pair_cases second with rfl | ⟨point, rfl⟩ | ⟨before, next, last, rfl⟩
  · rfl
  · rfl
  · rw [flat_tail_pair]
    simp only [joined, List.map_append, List.map_cons, List.map_nil, ← List.append_assoc]
    rw [flat_tail_pair, flat_tail_pair]
    rfl

end Breakpoints

namespace LinearSeries

variable {first second third : LinearSeries}

theorem append_assoc_ok_iff (firstLasts : Lasts first) (secondLasts : Lasts second)
    (thirdLasts : Lasts third) (whole : LinearSeries) :
    (∃ left, first.append second = .ok left ∧ left.append third = .ok whole) ↔
      ∃ right, second.append third = .ok right ∧ first.append right = .ok whole := by
  have leftFormed := (followed_by_lasts firstLasts secondLasts).formed
  have rightFormed := (followed_by_lasts secondLasts thirdLasts).formed
  constructor
  · rintro ⟨left, leftOk, wholeOk⟩
    rcases (append_iff_meet firstLasts.formed secondLasts.formed).1 leftOk with ⟨early, rfl⟩
    rcases (append_iff_meet leftFormed thirdLasts.formed).1 wholeOk with ⟨late, rfl⟩
    rw [followed_by_meet_iff firstLasts secondLasts] at late
    refine ⟨second.followedBy third,
      (append_iff_meet secondLasts.formed thirdLasts.formed).2 ⟨late, rfl⟩, ?_⟩
    rw [append_iff_meet firstLasts.formed rightFormed, meet_followed_by_iff secondLasts thirdLasts]
    exact ⟨early, followed_by_assoc secondLasts⟩
  · rintro ⟨right, rightOk, wholeOk⟩
    rcases (append_iff_meet secondLasts.formed thirdLasts.formed).1 rightOk with ⟨late, rfl⟩
    rcases (append_iff_meet firstLasts.formed rightFormed).1 wholeOk with ⟨early, rfl⟩
    rw [meet_followed_by_iff secondLasts thirdLasts] at early
    refine ⟨first.followedBy second,
      (append_iff_meet firstLasts.formed secondLasts.formed).2 ⟨early, rfl⟩, ?_⟩
    rw [append_iff_meet leftFormed thirdLasts.formed, followed_by_meet_iff firstLasts secondLasts]
    exact ⟨late, (followed_by_assoc secondLasts).symm⟩

end LinearSeries

namespace ConstantSeries

variable {first second third : ConstantSeries}

theorem append_assoc (firstFormed : WellFormed first.points)
    (secondFormed : WellFormed second.points) (thirdFormed : WellFormed third.points) :
    (first.append second).append third = first.append (second.append third) := by
  rw [append_points (append_well_formed firstFormed secondFormed) thirdFormed,
    append_points firstFormed (append_well_formed secondFormed thirdFormed),
    append_points firstFormed secondFormed, append_points secondFormed thirdFormed]
  dsimp only
  rw [joined_flat_tail, flat_tail_joined, joined_assoc secondFormed]

end ConstantSeries

namespace Series

section Three

variable {target : Target} {first second third whole : Series}

theorem append_formed (firstFormed : first.Formed target) (secondFormed : second.Formed target)
    (appended : first.append second = .ok whole) :
    whole.Formed target ∧ whole.duration = first.duration + second.duration := by
  cases target with
  | linear =>
      rcases firstFormed.linear with ⟨left, rfl, leftFormed⟩
      rcases secondFormed.linear with ⟨right, rfl, rightFormed⟩
      rcases (Outcome.map_ok_iff _ _ _).1 appended with ⟨joined, joins, rfl⟩
      rcases (LinearSeries.append_iff_meet leftFormed rightFormed).1 joins with ⟨_, rfl⟩
      exact ⟨⟨rfl, joined_well_formed leftFormed rightFormed⟩, duration_joined rightFormed⟩
  | constant =>
      rcases firstFormed.constant with ⟨left, rfl, leftFormed⟩
      rcases secondFormed.constant with ⟨right, rfl, rightFormed⟩
      cases appended
      exact ⟨⟨rfl, ConstantSeries.append_well_formed leftFormed rightFormed⟩,
        ConstantSeries.duration_append leftFormed rightFormed⟩

theorem Formed.positive (formed : first.Formed target) (lasts : first.duration ≠ 0) :
    0 < first.duration :=
  formed.points.duration_nonneg.lt_of_ne' lasts

theorem append_lasts (firstFormed : first.Formed target) (secondFormed : second.Formed target)
    (lasts : second.duration ≠ 0) (appended : first.append second = .ok whole) :
    whole.duration ≠ 0 := by
  rw [(append_formed firstFormed secondFormed appended).2]
  exact (add_pos_of_nonneg_of_pos firstFormed.points.duration_nonneg
    (secondFormed.positive lasts)).ne'

/-- Of three series that last for some time the first two can be appended first, or the last two. -/
theorem append_assoc_ok_iff (firstFormed : first.Formed target)
    (secondFormed : second.Formed target) (thirdFormed : third.Formed target)
    (firstPositive : 0 < first.duration) (secondPositive : 0 < second.duration)
    (thirdPositive : 0 < third.duration) :
    (∃ left, first.append second = .ok left ∧ left.append third = .ok whole) ↔
      ∃ right, second.append third = .ok right ∧ first.append right = .ok whole := by
  cases target with
  | linear =>
      rcases firstFormed.linear with ⟨one, rfl, oneFormed⟩
      rcases secondFormed.linear with ⟨two, rfl, twoFormed⟩
      rcases thirdFormed.linear with ⟨three, rfl, threeFormed⟩
      have assoc := LinearSeries.append_assoc_ok_iff ⟨oneFormed, firstPositive⟩
        ⟨twoFormed, secondPositive⟩ ⟨threeFormed, thirdPositive⟩
      simp only [append, Outcome.map_ok_iff]
      constructor
      · rintro ⟨_, ⟨left, leftOk, rfl⟩, wholeOk⟩
        rcases (Outcome.map_ok_iff _ _ _).1 wholeOk with ⟨joined, joins, rfl⟩
        rcases (assoc joined).1 ⟨left, leftOk, joins⟩ with ⟨right, rightOk, joinsRight⟩
        exact ⟨linear right, ⟨right, rightOk, rfl⟩, (Outcome.map_ok_iff _ _ _).2 ⟨_, joinsRight, rfl⟩⟩
      · rintro ⟨_, ⟨right, rightOk, rfl⟩, wholeOk⟩
        rcases (Outcome.map_ok_iff _ _ _).1 wholeOk with ⟨joined, joins, rfl⟩
        rcases (assoc joined).2 ⟨right, rightOk, joins⟩ with ⟨left, leftOk, joinsLeft⟩
        exact ⟨linear left, ⟨left, leftOk, rfl⟩, (Outcome.map_ok_iff _ _ _).2 ⟨_, joinsLeft, rfl⟩⟩
  | constant =>
      rcases firstFormed.constant with ⟨one, rfl, oneFormed⟩
      rcases secondFormed.constant with ⟨two, rfl, twoFormed⟩
      rcases thirdFormed.constant with ⟨three, rfl, threeFormed⟩
      have assoc := ConstantSeries.append_assoc oneFormed twoFormed threeFormed
      constructor
      · rintro ⟨_, ⟨⟩, ⟨⟩⟩
        refine ⟨constant (two.append three), rfl, ?_⟩
        rw [assoc]
        rfl
      · rintro ⟨_, ⟨⟩, ⟨⟩⟩
        refine ⟨constant (one.append two), rfl, ?_⟩
        rw [← assoc]
        rfl

/-- One series after the other. One without duration leaves no trace beside the other. -/
def follow (first second : Series) : Outcome Series :=
  if second.duration.isZero then .ok first
  else if first.duration.isZero then .ok second
  else first.append second

theorem follow_of_empty (first : Series) (empty : second.duration = 0) :
    first.follow second = .ok first := by
  rw [follow, if_pos ((Decimal.is_zero_iff _).2 empty)]

theorem follow_after_empty (empty : first.duration = 0) (lasts : second.duration ≠ 0) :
    first.follow second = .ok second := by
  rw [follow, if_neg (mt (Decimal.is_zero_iff _).1 lasts), if_pos ((Decimal.is_zero_iff _).2 empty)]

theorem follow_of_lasts (firstLasts : first.duration ≠ 0) (secondLasts : second.duration ≠ 0) :
    first.follow second = first.append second := by
  rw [follow, if_neg (mt (Decimal.is_zero_iff _).1 secondLasts),
    if_neg (mt (Decimal.is_zero_iff _).1 firstLasts)]

theorem follow_formed (firstFormed : first.Formed target) (secondFormed : second.Formed target)
    (follows : first.follow second = .ok whole) : whole.Formed target := by
  unfold follow at follows
  split_ifs at follows
  · cases follows
    exact firstFormed
  · cases follows
    exact secondFormed
  · exact (append_formed firstFormed secondFormed follows).1

theorem follow_assoc_of_lasts (firstFormed : first.Formed target)
    (secondFormed : second.Formed target) (thirdFormed : third.Formed target)
    (firstLasts : first.duration ≠ 0) (secondLasts : second.duration ≠ 0)
    (thirdLasts : third.duration ≠ 0) :
    (∃ left, first.follow second = .ok left ∧ left.follow third = .ok whole) ↔
      ∃ right, second.follow third = .ok right ∧ first.follow right = .ok whole := by
  have assoc : (∃ left, first.append second = .ok left ∧ left.append third = .ok whole) ↔
      ∃ right, second.append third = .ok right ∧ first.append right = .ok whole :=
    append_assoc_ok_iff firstFormed secondFormed thirdFormed (firstFormed.positive firstLasts)
      (secondFormed.positive secondLasts) (thirdFormed.positive thirdLasts)
  rw [follow_of_lasts firstLasts secondLasts, follow_of_lasts secondLasts thirdLasts]
  constructor
  · rintro ⟨left, leftOk, follows⟩
    rw [follow_of_lasts (append_lasts firstFormed secondFormed secondLasts leftOk) thirdLasts]
      at follows
    rcases assoc.1 ⟨left, leftOk, follows⟩ with ⟨right, rightOk, wholeOk⟩
    have rightLasts := append_lasts secondFormed thirdFormed thirdLasts rightOk
    exact ⟨right, rightOk, (follow_of_lasts firstLasts rightLasts).trans wholeOk⟩
  · rintro ⟨right, rightOk, follows⟩
    rw [follow_of_lasts firstLasts (append_lasts secondFormed thirdFormed thirdLasts rightOk)]
      at follows
    rcases assoc.2 ⟨right, rightOk, follows⟩ with ⟨left, leftOk, wholeOk⟩
    have leftLasts := append_lasts firstFormed secondFormed secondLasts leftOk
    exact ⟨left, leftOk, (follow_of_lasts leftLasts thirdLasts).trans wholeOk⟩

/-- Which of three series have no duration decides whether anything is appended, and to what. -/
theorem follow_assoc (firstFormed : first.Formed target) (secondFormed : second.Formed target)
    (thirdFormed : third.Formed target) :
    (∃ left, first.follow second = .ok left ∧ left.follow third = .ok whole) ↔
      ∃ right, second.follow third = .ok right ∧ first.follow right = .ok whole := by
  rcases eq_or_ne third.duration 0 with thirdEmpty | thirdLasts
  · simp only [follow_of_empty _ thirdEmpty, Except.ok.injEq, exists_eq_left', exists_eq_right]
  rcases eq_or_ne second.duration 0 with secondEmpty | secondLasts
  · simp only [follow_of_empty _ secondEmpty, follow_after_empty secondEmpty thirdLasts,
      Except.ok.injEq, exists_eq_left']
  rcases eq_or_ne first.duration 0 with firstEmpty | firstLasts
  · rw [follow_after_empty firstEmpty secondLasts, follow_of_lasts secondLasts thirdLasts]
    have rightLasts : ∀ {right}, second.append third = .ok right → right.duration ≠ 0 :=
      append_lasts secondFormed thirdFormed thirdLasts
    constructor
    · rintro ⟨_, ⟨⟩, follows⟩
      rw [follow_of_lasts secondLasts thirdLasts] at follows
      exact ⟨whole, follows, follow_after_empty firstEmpty (rightLasts follows)⟩
    · rintro ⟨right, rightOk, follows⟩
      rw [follow_after_empty firstEmpty (rightLasts rightOk)] at follows
      cases follows
      exact ⟨second, rfl, (follow_of_lasts secondLasts thirdLasts).trans rightOk⟩
  · exact follow_assoc_of_lasts firstFormed secondFormed thirdFormed firstLasts secondLasts thirdLasts

end Three

def joinAll : List Series → Outcome Series
  | [] => .error (.abort .missing)
  | first :: rest => rest.foldlM follow first

section Several

variable {target : Target} {first second whole : Series} {before inner after rest : List Series}

theorem join_all_cons_cons (first second : Series) (rest : List Series) :
    joinAll (first :: second :: rest) = .ok whole ↔
      ∃ left, first.follow second = .ok left ∧ joinAll (left :: rest) = .ok whole := by
  simp only [joinAll, List.foldlM_cons, Outcome.bind_ok_iff]

theorem join_all_formed (each : ∀ series ∈ rest, series.Formed target)
    (joins : joinAll rest = .ok whole) : whole.Formed target := by
  cases rest with
  | nil => cases joins
  | cons first rest =>
      induction rest generalizing first with
      | nil =>
          cases joins
          exact each _ (by simp)
      | cons second rest ih =>
          rcases List.forall_mem_cons.1 each with ⟨firstFormed, others⟩
          rcases List.forall_mem_cons.1 others with ⟨secondFormed, restFormed⟩
          rcases (join_all_cons_cons _ _ _).1 joins with ⟨left, leftOk, wholeOk⟩
          have leftFormed := follow_formed firstFormed secondFormed leftOk
          exact ih left (List.forall_mem_cons.2 ⟨leftFormed, restFormed⟩) wholeOk

theorem join_all_iff_follow (firstFormed : first.Formed target)
    (secondFormed : second.Formed target) (each : ∀ series ∈ rest, series.Formed target) :
    joinAll (first :: second :: rest) = .ok whole ↔
      ∃ right, joinAll (second :: rest) = .ok right ∧ first.follow right = .ok whole := by
  induction rest generalizing first second whole with
  | nil => simp [joinAll]
  | cons third rest ih =>
      rcases List.forall_mem_cons.1 each with ⟨thirdFormed, restFormed⟩
      constructor
      · intro joins
        rcases (join_all_cons_cons _ _ _).1 joins with ⟨left, leftOk, wholeOk⟩
        have leftFormed := follow_formed firstFormed secondFormed leftOk
        rcases (ih leftFormed thirdFormed restFormed).1 wholeOk with ⟨later, laterOk, follows⟩
        have laterFormed := join_all_formed (List.forall_mem_cons.2 ⟨thirdFormed, restFormed⟩) laterOk
        rcases (follow_assoc firstFormed secondFormed laterFormed).1 ⟨left, leftOk, follows⟩ with
          ⟨right, rightOk, wholeFollows⟩
        exact ⟨right, (ih secondFormed thirdFormed restFormed).2 ⟨later, laterOk, rightOk⟩,
          wholeFollows⟩
      · rintro ⟨right, rightOk, wholeFollows⟩
        rcases (ih secondFormed thirdFormed restFormed).1 rightOk with ⟨later, laterOk, follows⟩
        have laterFormed := join_all_formed (List.forall_mem_cons.2 ⟨thirdFormed, restFormed⟩) laterOk
        rcases (follow_assoc firstFormed secondFormed laterFormed).2 ⟨right, follows, wholeFollows⟩
          with ⟨left, leftOk, wholeOk⟩
        have leftFormed := follow_formed firstFormed secondFormed leftOk
        exact (join_all_cons_cons _ _ _).2
          ⟨left, leftOk, (ih leftFormed thirdFormed restFormed).2 ⟨later, laterOk, wholeOk⟩⟩

theorem join_all_append (first : Series) (before after : List Series) :
    joinAll (first :: before ++ after) = .ok whole ↔
      ∃ left, joinAll (first :: before) = .ok left ∧ joinAll (left :: after) = .ok whole := by
  simp only [joinAll, List.cons_append, List.foldlM_append, Outcome.bind_ok_iff]

theorem join_all_group_iff (innerFilled : inner ≠ [])
    (beforeFormed : ∀ series ∈ before, series.Formed target)
    (innerFormed : ∀ series ∈ inner, series.Formed target) (after : List Series) :
    joinAll (before ++ inner ++ after) = .ok whole ↔
      ∃ middle, joinAll inner = .ok middle ∧ joinAll (before ++ middle :: after) = .ok whole := by
  rcases List.exists_cons_of_ne_nil innerFilled with ⟨head, rest, rfl⟩
  rcases List.forall_mem_cons.1 innerFormed with ⟨headFormed, restFormed⟩
  cases before with
  | nil => exact join_all_append head rest after
  | cons first earlier =>
      -- What is joined before the group is one series, which the group follows.
      rw [List.append_assoc, join_all_append]
      constructor
      · rintro ⟨left, leftOk, wholeOk⟩
        have leftFormed := join_all_formed beforeFormed leftOk
        rcases (join_all_append left (head :: rest) after).1 wholeOk with ⟨longer, longerOk, afterOk⟩
        rcases (join_all_iff_follow leftFormed headFormed restFormed).1 longerOk with
          ⟨middle, middleOk, follows⟩
        refine ⟨middle, middleOk, (join_all_append first earlier (middle :: after)).2 ?_⟩
        exact ⟨left, leftOk, (join_all_cons_cons _ _ _).2 ⟨longer, follows, afterOk⟩⟩
      · rintro ⟨middle, middleOk, wholeOk⟩
        rcases (join_all_append first earlier (middle :: after)).1 wholeOk with
          ⟨left, leftOk, joins⟩
        rcases (join_all_cons_cons _ _ _).1 joins with ⟨longer, follows, afterOk⟩
        have leftFormed := join_all_formed beforeFormed leftOk
        refine ⟨left, leftOk, (join_all_append left (head :: rest) after).2 ⟨longer, ?_, afterOk⟩⟩
        exact (join_all_iff_follow leftFormed headFormed restFormed).2 ⟨middle, middleOk, follows⟩

end Several

end Series

theorem LinearSeries.join_all_ok_iff (first : LinearSeries) (rest : List LinearSeries)
    (whole : Series) :
    Series.joinAll ((first :: rest).map .linear) = .ok whole ↔
      ∃ line, concatenate (some first) (rest.map some) = .ok (some line) ∧ .linear line = whole := by
  induction rest generalizing first with
  | nil => simp [Series.joinAll, concatenate]
  | cons part rest ih =>
      have follows : (Series.linear first).follow (.linear part) =
          if part.duration.isZero then .ok (.linear first)
          else if first.duration.isZero then .ok (.linear part)
          else Series.linear <$> first.append part := rfl
      rw [List.map_cons, List.map_cons, Series.join_all_cons_cons, follows, List.map_cons,
        concatenate_cons]
      split_ifs
      · simpa using ih first
      · simpa using ih part
      · simp only [Outcome.bind_ok_iff, Outcome.map_ok_iff]
        constructor
        · rintro ⟨_, ⟨longer, longerOk, rfl⟩, wholeOk⟩
          rcases (ih longer).1 wholeOk with ⟨line, lineOk, same⟩
          exact ⟨line, ⟨longer, longerOk, lineOk⟩, same⟩
        · rintro ⟨line, ⟨longer, longerOk, lineOk⟩, same⟩
          exact ⟨_, ⟨longer, longerOk, rfl⟩, (ih longer).2 ⟨line, lineOk, same⟩⟩

theorem ConstantSeries.join_all_ok_iff (first : ConstantSeries) (rest : List ConstantSeries)
    (whole : Series) :
    Series.joinAll ((first :: rest).map .constant) = .ok whole ↔
      ∃ steps, concatenate (some first) (rest.map some) = .ok (some steps) ∧
        .constant steps = whole := by
  induction rest generalizing first with
  | nil => simp [Series.joinAll, concatenate]
  | cons part rest ih =>
      have follows : (Series.constant first).follow (.constant part) =
          if part.duration.isZero then .ok (.constant first)
          else if first.duration.isZero then .ok (.constant part)
          else .ok (.constant (first.append part)) := rfl
      rw [List.map_cons, List.map_cons, Series.join_all_cons_cons, follows, List.map_cons,
        concatenate_cons]
      split_ifs
      · simpa using ih first
      · simpa using ih part
      · simpa using ih (first.append part)

namespace Waveform

theorem append_filled_iff (parts : List Waveform) :
    (∀ node ∈ (Waveform.append parts).exposed, node ≠ .append []) ↔
      parts ≠ [] ∧ ∀ part ∈ parts, ∀ node ∈ part.exposed, node ≠ .append [] := by
  simp only [exposed, List.forall_mem_cons, mem_exposed_all]
  grind

section Lowering

variable [Natives] {bindings : ScalarBindings} {target : Target}

theorem formed_of_lower {parts : List Waveform} {serieses : List Series}
    (filled : ∀ part ∈ parts, ∀ node ∈ part.exposed, node ≠ .append [])
    (each : List.Forall₂ (fun part series => part.lower bindings target = .ok series) parts
      serieses) :
    ∀ series ∈ serieses, series.Formed target := by
  intro series member
  rcases Outcome.source_of_mem each member with ⟨part, partMember, lowers⟩
  exact ⟨target_of_lower lowers, (lower_formed (filled part partMember) lowers).2⟩

/-- The series of an append are joined, whatever their form is. -/
theorem lower_append_of_forms {form : Type} {wrap : form → Series} {lowersTo : Waveform → form → Prop}
    {concatenates : form → List form → form → Prop} (parts : List Waveform)
    (lower_iff : ∀ (waveform : Waveform) (series : Series),
      waveform.lower bindings target = .ok series ↔
        ∃ one, lowersTo waveform one ∧ wrap one = series)
    (append_iff : ∀ whole, lowersTo (.append parts) whole ↔
      ∃ first rest part others, parts = part :: others ∧ lowersTo part first ∧
        List.Forall₂ lowersTo others rest ∧ concatenates first rest whole)
    (join_iff : ∀ (first : form) (rest : List form) (whole : Series),
      Series.joinAll ((first :: rest).map wrap) = .ok whole ↔
        ∃ one, concatenates first rest one ∧ wrap one = whole) (whole : Series) :
    (Waveform.append parts).lower bindings target = .ok whole ↔
      ∃ serieses, List.Forall₂ (fun part series => part.lower bindings target = .ok series) parts
        serieses ∧ Series.joinAll serieses = .ok whole := by
  simp only [lower_iff, append_iff]
  constructor
  · rintro ⟨one, ⟨first, rest, part, others, rfl, partLowers, othersLower, joins⟩, rfl⟩
    refine ⟨(first :: rest).map wrap, ?_, (join_iff _ _ _).2 ⟨one, joins, rfl⟩⟩
    rw [List.forall₂_map_right_iff]
    exact (List.Forall₂.cons partLowers othersLower).imp fun _ found lowers => ⟨found, lowers, rfl⟩
  · rintro ⟨serieses, each, joins⟩
    rcases Outcome.related_images each with ⟨found, foundEach, rfl⟩
    cases foundEach with
    | nil => cases joins
    | cons partLowers othersLower =>
        rcases (join_iff _ _ _).1 joins with ⟨one, oneJoins, rfl⟩
        exact ⟨one, ⟨_, _, _, _, rfl, partLowers, othersLower, oneJoins⟩, rfl⟩

theorem lower_append_iff (parts : List Waveform)
    (filled : ∀ node ∈ (Waveform.append parts).exposed, node ≠ .append []) (whole : Series) :
    (Waveform.append parts).lower bindings target = .ok whole ↔
      ∃ serieses, List.Forall₂ (fun part series => part.lower bindings target = .ok series) parts
        serieses ∧ Series.joinAll serieses = .ok whole := by
  cases target with
  | linear =>
      have lower_iff : ∀ (waveform : Waveform) series, waveform.lower bindings .linear = .ok series ↔
          ∃ line, Lowers bindings waveform line ∧ .linear line = series := by
        simp only [lower, Outcome.map_ok_iff, lower_linear_ok_iff, implies_true]
      exact lower_append_of_forms parts lower_iff (append_lowers_iff parts filled)
        LinearSeries.join_all_ok_iff whole
  | constant =>
      have lower_iff : ∀ (waveform : Waveform) series,
          waveform.lower bindings .constant = .ok series ↔
            ∃ steps, Steps bindings waveform steps ∧ .constant steps = series := by
        simp only [lower, Outcome.map_ok_iff, lower_constant_ok_iff, implies_true]
      exact lower_append_of_forms parts lower_iff (fun steps => append_steps_iff steps parts filled)
        ConstantSeries.join_all_ok_iff whole

/-- An append among the parts of an append has the same series as its own parts in its place. -/
theorem lower_nested_append_iff (bindings : ScalarBindings) (target : Target)
    (before inner after : List Waveform) (innerFilled : inner ≠ [])
    (filled : ∀ part ∈ before ++ inner ++ after, ∀ node ∈ part.exposed, node ≠ .append [])
    (series : Series) :
    (append (before ++ append inner :: after)).lower bindings target = .ok series ↔
      (append (before ++ inner ++ after)).lower bindings target = .ok series := by
  have beforeFilled : ∀ part ∈ before, ∀ node ∈ part.exposed, node ≠ .append [] :=
    fun part member => filled part (by simp [member])
  have innerParts : ∀ part ∈ inner, ∀ node ∈ part.exposed, node ≠ .append [] :=
    fun part member => filled part (by simp [member])
  have innerExposed := (append_filled_iff inner).2 ⟨innerFilled, innerParts⟩
  have nestedExposed := (append_filled_iff (before ++ append inner :: after)).2 ⟨by simp, by
    intro part member
    simp only [List.mem_append, List.mem_cons] at member
    rcases member with early | rfl | late
    · exact beforeFilled part early
    · exact innerExposed
    · exact filled part (by simp [late])⟩
  have flatExposed := (append_filled_iff (before ++ inner ++ after)).2
    ⟨by simp [innerFilled], filled⟩
  rw [lower_append_iff _ nestedExposed, lower_append_iff _ flatExposed]
  constructor
  · rintro ⟨serieses, each, joins⟩
    rcases Outcome.related_append each with ⟨earlier, others, rfl, beforeLower, othersLower⟩
    cases othersLower with
    | cons middleLowers afterLower =>
        rcases (lower_append_iff inner innerExposed _).1 middleLowers with
          ⟨inners, innerLower, middleOk⟩
        refine ⟨_, List.rel_append (List.rel_append beforeLower innerLower) afterLower, ?_⟩
        apply (Series.join_all_group_iff _ (formed_of_lower beforeFilled beforeLower)
          (formed_of_lower innerParts innerLower) _).2 ⟨_, middleOk, joins⟩
        rintro rfl
        cases middleOk
  · rintro ⟨serieses, each, joins⟩
    rcases Outcome.related_append each with ⟨others, later, rfl, othersLower, afterLower⟩
    rcases Outcome.related_append othersLower with ⟨earlier, inners, rfl, beforeLower, innerLower⟩
    have filledInners : inners ≠ [] := by
      rintro rfl
      cases innerLower
      exact innerFilled rfl
    rcases (Series.join_all_group_iff filledInners (formed_of_lower beforeFilled beforeLower)
      (formed_of_lower innerParts innerLower) later).1 joins with ⟨middle, middleOk, wholeOk⟩
    have middleLowers := (lower_append_iff inner innerExposed _).2 ⟨inners, innerLower, middleOk⟩
    exact ⟨_, List.rel_append beforeLower (.cons middleLowers afterLower), wholeOk⟩

end Lowering

def levelFor (value duration : Decimal) : Waveform :=
  .constant (.literal value) (.literal duration)

theorem lower_nested_append_iff_levels :
    (append ([levelFor 7 0] ++ [.ramp (.literal 0) (.literal 2) (.literal 1), levelFor 5 0] ++
        [levelFor 2 3])).lower .empty .linear = .ok (.linear ⟨[⟨0, 0⟩, ⟨1, 2⟩, ⟨4, 2⟩]⟩) ∧
      (append ([levelFor 1 2] ++ [levelFor 7 0, levelFor 2 1] ++ [])).lower .empty .constant =
        .ok (.constant ⟨[⟨0, 1⟩, ⟨2, 2⟩, ⟨3, 2⟩]⟩) := by
  constructor
  · exact (lower_nested_append_iff .empty .linear _ _ _ (List.cons_ne_nil _ _)
      (by simp [levelFor, exposed]) _).1 rfl
  · exact (lower_nested_append_iff .empty .constant _ _ _ (List.cons_ne_nil _ _)
      (by simp [levelFor, exposed]) _).1 rfl

end Waveform

end Analog
