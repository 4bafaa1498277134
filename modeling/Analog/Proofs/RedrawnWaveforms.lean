import Analog.Proofs.CanonicalWaveforms
import Analog.Proofs.PlottedWaveforms
import Analog.Proofs.StraightenedSeries

/-!
# Waveforms that are drawn anew

A rule of simplification redraws a waveform if the result is plotted as well, with the same exact
values and the same breakpoints or fewer, and shows whatever the waveform shows. The rules for
scales, negations and waveforms one after the other do.
-/

set_option autoImplicit false

namespace Analog.Canonical

open Waveform LinearSeries Breakpoints

section

variable [Natives] {interpolated : Bool} {bindings : ScalarBindings}

def ShowsToo (bindings : ScalarBindings) (given result : Waveform) : Prop :=
  ∀ time, 0 ≤ time → ∀ shown, Shows bindings given time shown → Shows bindings result time shown

/-- Where the given waveform is plotted the result is plotted as well and keeps its series. -/
def Redraws (interpolated : Bool) (bindings : ScalarBindings) (given result : Waveform) : Prop :=
  ∀ series, Plots interpolated bindings given series →
    ∃ kept, Plots interpolated bindings result kept ∧ Preserves interpolated series kept ∧
      ShowsToo bindings given result

variable {given result inner inner' : Waveform}

theorem Redraws.refl (given : Waveform) : Redraws interpolated bindings given given :=
  fun series plots => ⟨series, plots, .refl series, fun _ _ _ appears => appears⟩

theorem Redraws.trans {last : Waveform} (one : Redraws interpolated bindings given result)
    (two : Redraws interpolated bindings result last) :
    Redraws interpolated bindings given last := by
  intro series plots
  rcases one series plots with ⟨middle, middlePlots, keeps, appears⟩
  rcases two middle middlePlots with ⟨kept, keptPlots, keepsToo, appearsToo⟩
  refine ⟨kept, keptPlots, keeps.trans keepsToo, fun time nonneg shown first => ?_⟩
  exact appearsToo time nonneg shown (appears time nonneg shown first)

/-- The result may have exactly the series of the given waveform. -/
theorem redraws_exactly
    (keeps : ∀ series, Plots interpolated bindings given series →
      Plots interpolated bindings result series)
    (appears : ∀ series, Plots interpolated bindings given series → ShowsToo bindings given result) :
    Redraws interpolated bindings given result :=
  fun series plots => ⟨series, keeps series plots, .refl series, appears series plots⟩

/-- A leaf shows every value of its series that has few digits. -/
theorem redraws_to_leaf
    (isLeaf : ∀ time shown, LeafShows bindings result time shown → Shows bindings result time shown)
    (keeps : ∀ series, Plots interpolated bindings given series →
      ∃ kept, Plots interpolated bindings result kept ∧ Preserves interpolated series kept) :
    Redraws interpolated bindings given result := by
  intro series plots
  rcases keeps series plots with ⟨kept, keptPlots, kept_keeps⟩
  refine ⟨kept, keptPlots, kept_keeps, fun time nonneg shown appears => isLeaf time shown ?_⟩
  refine ⟨kept, keptPlots.lowers, ?_, appears.short⟩
  rw [kept_keeps.straightens.graph]
  exact plots.reaches time nonneg shown appears

theorem leaf_alike
    (isLeaf : ∀ time shown, LeafShows bindings given time shown → Shows bindings given time shown)
    (isLeaf' : ∀ time shown, LeafShows bindings result time shown →
      Shows bindings result time shown)
    (same : ∀ series, Plots interpolated bindings given series ↔
      Plots interpolated bindings result series) :
    Redraws interpolated bindings given result ∧ Redraws interpolated bindings result given :=
  ⟨redraws_to_leaf isLeaf' fun series plots => ⟨series, (same series).1 plots, .refl series⟩,
    redraws_to_leaf isLeaf fun series plots => ⟨series, (same series).2 plots, .refl series⟩⟩

theorem redraws_to_constant {value length : Scalar} {number extent : Decimal}
    (valueMeans : Scalar.Means bindings value number)
    (lengthMeans : Scalar.Means bindings length extent)
    (level : ∀ series, Plots interpolated bindings given series →
      series.duration = extent ∧ Preserves interpolated series (line extent number number)) :
    Redraws interpolated bindings given (.constant value length) := by
  apply redraws_to_leaf
  · exact fun _ _ appears => appears
  intro series plots
  rcases level series plots with ⟨lasts, keeps⟩
  have positive := plots.lasts.positive
  rw [lasts] at positive
  exact ⟨_, (constant_plots_iff _ valueMeans lengthMeans).2 ⟨positive, rfl⟩, keeps⟩

omit [Natives] in
theorem keeps_level {series : LinearSeries} {extent number : Decimal} (lasts : Lasts series)
    (sameDuration : series.duration = extent) (level : Level series number) :
    series.duration = extent ∧ Preserves interpolated series (line extent number number) := by
  refine ⟨sameDuration, .of_thins lasts.formed ?_⟩
  rw [← sameDuration]
  exact thins_to_line lasts level

theorem negative_redraws (redraws : Redraws interpolated bindings inner inner') :
    Redraws interpolated bindings (.negative inner) (.negative inner') := by
  intro series plots
  rw [Plots] at plots
  rcases plots with ⟨innerSeries, innerPlots, rfl⟩
  rcases redraws innerSeries innerPlots with ⟨kept, keptPlots, keeps, appears⟩
  refine ⟨kept.map (-·), ?_, keeps.negate, ?_⟩
  · rw [Plots]
    exact ⟨kept, keptPlots, rfl⟩
  · rintro time nonneg _ ⟨shown, innerAppears, rfl⟩
    exact ⟨shown, appears time nonneg shown innerAppears, rfl⟩

section Scale

variable {factor factor' : Scalar} {number number' : Decimal}

theorem scale_redraws (factorMeans : Scalar.Means bindings factor number)
    (factorMeans' : Scalar.Means bindings factor' number)
    (redraws : Redraws interpolated bindings inner inner') :
    Redraws interpolated bindings (.scale factor inner) (.scale factor' inner') := by
  intro series plots
  rcases (scale_plots_iff _ factorMeans).1 plots with ⟨innerSeries, innerPlots, rfl⟩
  rcases redraws innerSeries innerPlots with ⟨kept, keptPlots, keeps, appears⟩
  refine ⟨_, (scale_plots_iff _ factorMeans').2 ⟨kept, keptPlots, rfl⟩, keeps.map number, ?_⟩
  intro time nonneg shown whole
  rcases (scale_shows_iff factorMeans.evaluates _ _ _).1 whole with
    ⟨innerShown, innerAppears, same, short⟩
  exact (scale_shows_iff factorMeans'.evaluates _ _ _).2
    ⟨innerShown, appears time nonneg innerShown innerAppears, same, short⟩

/-- Multiplied by zero, a waveform is a level line however many breakpoints it has. -/
theorem scale_zero_redraws {length : Scalar} {meaning : Signal}
    (factorMeans : Scalar.Means bindings factor 0) (means : Waveform.Means bindings given meaning)
    (lengthMeans : Scalar.Means bindings length meaning.duration) :
    Redraws interpolated bindings (.scale factor given) (.zero length) := by
  apply redraws_to_constant (Scalar.literal_means 0) lengthMeans
  intro series plots
  have lasts := plots.lasts
  rcases (scale_plots_iff _ factorMeans).1 plots with ⟨innerSeries, innerPlots, rfl⟩
  apply keeps_level lasts
  · rw [duration_map, innerPlots.duration_eq means]
  · intro point member
    rcases List.mem_map.1 member with ⟨_, _, rfl⟩
    exact zero_mul _

theorem scale_one_redraws (factorMeans : Scalar.Means bindings factor 1) :
    Redraws interpolated bindings (.scale factor given) given := by
  apply redraws_exactly
  · intro series plots
    rcases (scale_plots_iff _ factorMeans).1 plots with ⟨innerSeries, innerPlots, rfl⟩
    simpa only [one_mul, map_id] using innerPlots
  · intro series _ time _ shown appears
    rcases (scale_shows_iff factorMeans.evaluates _ _ _).1 appears with ⟨_, innerAppears, rfl, _⟩
    rwa [one_mul]

theorem redraws_scale_one (factorMeans : Scalar.Means bindings factor 1) :
    Redraws interpolated bindings given (.scale factor given) := by
  apply redraws_exactly
  · intro series plots
    refine (scale_plots_iff _ factorMeans).2 ⟨series, plots, ?_⟩
    simp only [one_mul, map_id]
  · intro series _ time _ shown appears
    exact (scale_shows_iff factorMeans.evaluates _ _ _).2
      ⟨shown, appears, (one_mul _).symm, appears.short⟩

theorem scale_scale_redraws {both : Scalar} (factorMeans : Scalar.Means bindings factor number)
    (factorMeans' : Scalar.Means bindings factor' number')
    (bothMeans : Scalar.Means bindings both (number * number')) :
    Redraws interpolated bindings (.scale factor (.scale factor' inner)) (.scale both inner) := by
  apply redraws_exactly
  · intro series plots
    rcases (scale_plots_iff _ factorMeans).1 plots with ⟨_, scaledPlots, rfl⟩
    rcases (scale_plots_iff _ factorMeans').1 scaledPlots with ⟨innerSeries, innerPlots, rfl⟩
    refine (scale_plots_iff _ bothMeans).2 ⟨innerSeries, innerPlots, ?_⟩
    simp only [map_map, mul_assoc]
  · intro series _ time _ shown appears
    rcases (scale_shows_iff factorMeans.evaluates _ _ _).1 appears with ⟨_, scaled, rfl, short⟩
    rcases (scale_shows_iff factorMeans'.evaluates _ _ _).1 scaled with
      ⟨innerShown, innerAppears, rfl, _⟩
    exact (scale_shows_iff bothMeans.evaluates _ _ _).2
      ⟨innerShown, innerAppears, (mul_assoc _ _ _).symm, short⟩

theorem scale_constant_redraws {value length : Scalar} {extent : Decimal}
    (factorMeans : Scalar.Means bindings factor number)
    (valueMeans : Scalar.Means bindings value number')
    (lengthMeans : Scalar.Means bindings length extent) :
    Redraws interpolated bindings (.scale factor (.constant value length))
      (.constant (product factor value) length) := by
  apply redraws_to_constant (product_means factorMeans valueMeans) lengthMeans
  intro series plots
  rcases (scale_plots_iff _ factorMeans).1 plots with ⟨_, levelPlots, rfl⟩
  rcases (constant_plots_iff _ valueMeans lengthMeans).1 levelPlots with ⟨positive, rfl⟩
  rw [duration_map, map_line]
  exact ⟨(line_spans positive.le).lasts, .refl _⟩

theorem negative_constant_redraws {value length : Scalar} {extent : Decimal}
    (valueMeans : Scalar.Means bindings value number)
    (lengthMeans : Scalar.Means bindings length extent) :
    Redraws interpolated bindings (.negative (.constant value length))
      (.constant (negative value) length) := by
  apply redraws_to_constant (negative_means valueMeans) lengthMeans
  intro series plots
  rw [Plots] at plots
  rcases plots with ⟨_, levelPlots, rfl⟩
  rcases (constant_plots_iff _ valueMeans lengthMeans).1 levelPlots with ⟨positive, rfl⟩
  rw [duration_map, map_line]
  exact ⟨(line_spans positive.le).lasts, .refl _⟩

theorem negative_negative_redraws :
    Redraws interpolated bindings (.negative (.negative inner)) inner := by
  apply redraws_exactly
  · intro series plots
    simp only [Plots] at plots
    rcases plots with ⟨_, ⟨innerSeries, innerPlots, rfl⟩, rfl⟩
    simpa only [map_map, neg_neg, map_id] using innerPlots
  · rintro series _ time _ _ ⟨_, ⟨shown, innerAppears, rfl⟩, rfl⟩
    rwa [neg_neg]

theorem negative_scale_redraws {opposite : Scalar}
    (factorMeans : Scalar.Means bindings factor number)
    (oppositeMeans : Scalar.Means bindings opposite (-number)) :
    Redraws interpolated bindings (.negative (.scale factor inner)) (.scale opposite inner) := by
  apply redraws_exactly
  · intro series plots
    rw [Plots] at plots
    rcases plots with ⟨_, scaledPlots, rfl⟩
    rcases (scale_plots_iff _ factorMeans).1 scaledPlots with ⟨innerSeries, innerPlots, rfl⟩
    refine (scale_plots_iff _ oppositeMeans).2 ⟨innerSeries, innerPlots, ?_⟩
    simp only [map_map, neg_mul]
  · intro series _ time _ shown appears
    have short := appears.short
    rcases appears with ⟨_, scaled, rfl⟩
    rcases (scale_shows_iff factorMeans.evaluates _ _ _).1 scaled with
      ⟨innerShown, innerAppears, rfl, _⟩
    exact (scale_shows_iff oppositeMeans.evaluates _ _ _).2
      ⟨innerShown, innerAppears, (neg_mul _ _).symm, short⟩

/-- A negation is a multiplication by minus one, and the other way round. -/
theorem negative_scale_alike (factorMeans : Scalar.Means bindings factor (-1)) :
    Redraws interpolated bindings (.negative inner) (.scale factor inner) ∧
      Redraws interpolated bindings (.scale factor inner) (.negative inner) := by
  constructor
  · apply redraws_exactly
    · intro series plots
      rw [Plots] at plots
      rcases plots with ⟨innerSeries, innerPlots, rfl⟩
      refine (scale_plots_iff _ factorMeans).2 ⟨innerSeries, innerPlots, ?_⟩
      simp only [neg_one_mul]
    · intro series _ time _ shown appears
      have short := appears.short
      rcases appears with ⟨innerShown, innerAppears, rfl⟩
      exact (scale_shows_iff factorMeans.evaluates _ _ _).2
        ⟨innerShown, innerAppears, (neg_one_mul _).symm, short⟩
  · apply redraws_exactly
    · intro series plots
      rcases (scale_plots_iff _ factorMeans).1 plots with ⟨innerSeries, innerPlots, rfl⟩
      rw [Plots]
      refine ⟨innerSeries, innerPlots, ?_⟩
      simp only [neg_one_mul]
    · intro series _ time _ shown appears
      rcases (scale_shows_iff factorMeans.evaluates _ _ _).1 appears with
        ⟨innerShown, innerAppears, rfl, _⟩
      exact ⟨innerShown, innerAppears, neg_one_mul _⟩

variable {relation : Waveform → Waveform → Prop}

theorem scale_yields_redrawn {meaning : Signal} (factorMeans : Scalar.Means bindings factor number)
    (means : Waveform.Means bindings given meaning) :
    Yields (Faithful bindings relation) (scale factor given)
      (Redraws interpolated bindings (.scale factor given)) := by
  fun_induction scale factor given generalizing number meaning with
  | case1 factor given zero =>
      rw [factorMeans.zero zero] at factorMeans
      exact (duration_yields means).bind fun length lengthMeans =>
        .pure (scale_zero_redraws factorMeans means lengthMeans)
  | case2 factor given _ one =>
      rw [factorMeans.one one] at factorMeans
      exact .pure (scale_one_redraws factorMeans)
  | case3 factor _ _ innerFactor inner ih =>
      rcases (Waveform.scale_means_iff _ _ _).1 means with
        ⟨innerNumber, innerMeaning, innerFactorMeans, innerMeans, rfl⟩
      have productMeans := product_means factorMeans innerFactorMeans
      exact (ih productMeans innerMeans).mono fun _ =>
        (scale_scale_redraws factorMeans innerFactorMeans productMeans).trans
  | case4 factor _ _ value length =>
      rcases (Waveform.constant_means_iff _ _ _).1 means with ⟨_, _, valueMeans, lengthMeans, _, _⟩
      exact .pure (scale_constant_redraws factorMeans valueMeans lengthMeans)
  | case5 => exact .pure (Redraws.refl _)

theorem scale_yields_after {before : Waveform} {meaning : Signal}
    (redraws : Redraws interpolated bindings before (.scale factor given))
    (factorMeans : Scalar.Means bindings factor number)
    (means : Waveform.Means bindings given meaning) :
    Yields (Faithful bindings relation) (scale factor given)
      (Redraws interpolated bindings before) :=
  (scale_yields_redrawn factorMeans means).mono fun _ => redraws.trans

theorem negate_yields_redrawn {meaning : Signal} (means : Waveform.Means bindings given meaning) :
    Yields (Faithful bindings relation) (negate given)
      (Redraws interpolated bindings (.negative given)) := by
  unfold negate
  split
  case h_1 inner => exact .pure negative_negative_redraws
  case h_2 value length =>
      rcases (Waveform.constant_means_iff _ _ _).1 means with ⟨_, _, valueMeans, lengthMeans, _, _⟩
      exact .pure (negative_constant_redraws valueMeans lengthMeans)
  case h_3 factor inner =>
      split
      case h_1 known found =>
          split_ifs with isNegative
          · rcases (Waveform.scale_means_iff _ _ _).1 means with
              ⟨number, innerMeaning, factorMeans, innerMeans, rfl⟩
            have same := factorMeans.known found
            subst same
            have oppositeMeans : Scalar.Means bindings (.literal (-known)) (-known) :=
              Scalar.literal_means (-known)
            exact scale_yields_after (negative_scale_redraws factorMeans oppositeMeans)
              oppositeMeans innerMeans
          · exact .pure (Redraws.refl _)
      case h_2 => exact .pure (Redraws.refl _)
  case h_4 => exact .pure (Redraws.refl _)

end Scale

theorem plots_single_iff (part : Waveform) (series : LinearSeries) :
    Plots interpolated bindings (.append [part]) series ↔
      Plots interpolated bindings part series := by
  rw [plots_append_iff]
  constructor
  · rintro ⟨serieses, each, strung⟩
    cases each with
    | cons partPlots rest =>
        cases rest
        cases strung with
        | single => exact partPlots
        | cons others _ => cases others
  · intro plots
    exact ⟨[series], List.Forall₂.cons plots List.Forall₂.nil, .single series⟩

/-- A single part shows what the whole shows. Behind its end that is zero. -/
theorem shows_single_iff {part : Waveform} {series : LinearSeries}
    (plots : Plots interpolated bindings part series) {time : Decimal} (nonneg : 0 ≤ time)
    (shown : Decimal) :
    Shows bindings (.append [part]) time shown ↔ Shows bindings part time shown := by
  rw [Shows, shows_in_cons_iff _ _ plots.duration]
  split_ifs with early
  · rfl
  · have late := not_le.1 early
    change shown = 0 ↔ _
    constructor
    · rintro rfl
      exact plots.shows_ended late
    · intro appears
      have value := plots.reaches time nonneg shown appears
      rw [graph_outside (.inr late), ← Decimal.to_rat_zero] at value
      exact (Decimal.to_rat_injective value).symm

theorem single_redraws (part : Waveform) :
    Redraws interpolated bindings part (.append [part]) := by
  apply redraws_exactly
  · exact fun series => (plots_single_iff part series).2
  · exact fun series plots time nonneg shown => (shows_single_iff plots nonneg shown).2

theorem redraws_single (part : Waveform) :
    Redraws interpolated bindings (.append [part]) part := by
  apply redraws_exactly
  · exact fun series => (plots_single_iff part series).1
  · intro series plots time nonneg shown
    exact (shows_single_iff ((plots_single_iff part series).1 plots) nonneg shown).1

variable {relation : Waveform → Waveform → Prop}

theorem append_redraws {before before' after after' : List Waveform} (beforeFilled : before ≠ [])
    (afterFilled : after ≠ [])
    (beforeRedraws : Redraws interpolated bindings (.append before) (.append before'))
    (afterRedraws : Redraws interpolated bindings (.append after) (.append after')) :
    Redraws interpolated bindings (.append (before ++ after)) (.append (before' ++ after')) := by
  intro series plots
  rcases (plots_append_iff _ _).1 plots with ⟨serieses, each, strung⟩
  rcases Outcome.related_append each with ⟨earlier, later, rfl, beforeEach, afterEach⟩
  rcases strung.split (fun none => beforeFilled (by simpa [none] using beforeEach.length_eq))
    (fun none => afterFilled (by simpa [none] using afterEach.length_eq)) (all_last each) with
    ⟨first, second, firstStrung, secondStrung, meets, rfl⟩
  have firstPlots := (plots_append_iff before first).2 ⟨earlier, beforeEach, firstStrung⟩
  have secondPlots := (plots_append_iff after second).2 ⟨later, afterEach, secondStrung⟩
  rcases beforeRedraws first firstPlots with ⟨kept, keptPlots, keeps, appears⟩
  rcases afterRedraws second secondPlots with ⟨kept', keptPlots', keeps', appears'⟩
  have met := keeps.straightens.meet keeps'.straightens firstPlots.lasts secondPlots.lasts
    keptPlots.lasts keptPlots'.lasts meets
  rcases (plots_append_iff _ _).1 keptPlots with ⟨_, keptEach, keptStrung⟩
  rcases (plots_append_iff _ _).1 keptPlots' with ⟨_, keptEach', keptStrung'⟩
  refine ⟨kept.followedBy kept', ?_, ?_, ?_⟩
  · exact (plots_append_iff _ _).2 ⟨_, List.rel_append keptEach keptEach',
      keptStrung.append keptStrung' (all_last keptEach) (all_last keptEach') met⟩
  · exact keeps.followed_by keeps' firstPlots.lasts secondPlots.lasts keptPlots.lasts
      keptPlots'.lasts meets
  · intro time nonneg shown whole
    rw [Shows, shows_in_append_iff firstPlots] at whole
    rw [Shows, shows_in_append_iff keptPlots, keeps.straightens.lasts]
    split_ifs at whole ⊢ with early
    · exact appears time nonneg shown whole
    · exact appears' _ (sub_nonneg.2 (not_le.1 early).le) shown whole

theorem append_redraws_after (before : List Waveform) {after after' : List Waveform}
    (afterFilled : after ≠ []) (redraws : Redraws interpolated bindings (.append after) (.append after')) :
    Redraws interpolated bindings (.append (before ++ after)) (.append (before ++ after')) := by
  rcases eq_or_ne before [] with rfl | beforeFilled
  · exact redraws
  · exact append_redraws beforeFilled afterFilled (Redraws.refl _) redraws

theorem append_redraws_before (after : List Waveform) {before before' : List Waveform}
    (beforeFilled : before ≠ []) (redraws : Redraws interpolated bindings (.append before) (.append before')) :
    Redraws interpolated bindings (.append (before ++ after)) (.append (before' ++ after)) := by
  rcases eq_or_ne after [] with rfl | afterFilled
  · simpa only [List.append_nil] using redraws
  · exact append_redraws beforeFilled afterFilled redraws (Redraws.refl _)

theorem append_redraws_each {parts parts' : List Waveform}
    (each : List.Forall₂ (Redraws interpolated bindings) parts parts') :
    Redraws interpolated bindings (.append parts) (.append parts') := by
  induction each with
  | nil => exact Redraws.refl _
  | @cons part part' rest rest' redraws others ih =>
      have first : Redraws interpolated bindings (.append [part]) (.append [part']) :=
        ((redraws_single part).trans redraws).trans (single_redraws part')
      cases others with
      | nil => exact first
      | cons _ _ => exact append_redraws (List.cons_ne_nil _ _) (List.cons_ne_nil _ _) first ih

theorem splice_redraws (parts : List Waveform) :
    Redraws interpolated bindings (.append parts) (.append (parts.flatMap spliceParts)) := by
  induction parts with
  | nil => exact Redraws.refl _
  | cons part rest ih =>
      have first : Redraws interpolated bindings (.append [part]) (.append (spliceParts part)) := by
        unfold spliceParts
        split
        case h_1 inner => exact redraws_single _
        case h_2 => exact Redraws.refl _
      rw [List.flatMap_cons]
      rcases eq_or_ne rest [] with rfl | restFilled
      · simpa using first
      · exact append_redraws (List.cons_ne_nil _ _) restFilled first ih

/-- Constants of one value are one constant; the breakpoint between them is not needed. -/
theorem merge_redraws {value nextValue length nextLength : Scalar} {number extent nextExtent : Decimal}
    (valueMeans : Scalar.Means bindings value number)
    (nextValueMeans : Scalar.Means bindings nextValue number)
    (lengthMeans : Scalar.Means bindings length extent)
    (nextLengthMeans : Scalar.Means bindings nextLength nextExtent) :
    Redraws interpolated bindings (.append [.constant value length, .constant nextValue nextLength])
      (.append [.constant value (sum length nextLength)]) := by
  refine Redraws.trans ?_ (single_redraws _)
  apply redraws_to_constant valueMeans (sum_means lengthMeans nextLengthMeans)
  intro series plots
  have lasts := plots.lasts
  rcases (plots_append_iff _ _).1 plots with ⟨serieses, each, strung⟩
  cases each with
  | cons firstPlots rest =>
      cases rest with
      | cons secondPlots none =>
          cases none
          rcases (constant_plots_iff _ valueMeans lengthMeans).1 firstPlots with ⟨positive, rfl⟩
          rcases (constant_plots_iff _ nextValueMeans nextLengthMeans).1 secondPlots with
            ⟨nextPositive, rfl⟩
          cases strung with
          | cons others _ =>
              cases others with
              | cons others _ => cases others
              | single =>
                  apply keeps_level lasts
                  · rw [(followed_by_spans firstPlots.lasts secondPlots.lasts).lasts,
                      (line_spans positive.le).lasts, (line_spans nextPositive.le).lasts]
                  · exact followed_by_level (line_is_level _ _) (line_is_level _ _)

/-- One more part after those joined so far, which stand in reverse. -/
theorem join_part_redraws {reversed : List Waveform} {before : List Signal} {part : Waveform}
    {meaning : Signal} (beforeMean : List.Forall₂ (Waveform.Means bindings) reversed before)
    (means : Waveform.Means bindings part meaning) :
    Redraws interpolated bindings (.append (reversed.reverse ++ [part]))
      (.append (joinPart reversed part).reverse) := by
  have apart : Redraws interpolated bindings (.append (reversed.reverse ++ [part]))
      (.append (part :: reversed).reverse) := by
    rw [List.reverse_cons]
    exact Redraws.refl _
  unfold joinPart
  split
  case h_1 value length rest nextValue nextLength =>
      split_ifs with equal
      · cases beforeMean with
        | cons lastMeans _ =>
            obtain ⟨_, _, valueMeans, lengthMeans, _, _⟩ :=
              (Waveform.constant_means_iff _ _ _).1 lastMeans
            obtain ⟨_, _, nextValueMeans, nextLengthMeans, _, _⟩ :=
              (Waveform.constant_means_iff _ _ _).1 means
            rw [← valueMeans.of_same nextValueMeans equal] at nextValueMeans
            rw [List.reverse_cons, List.reverse_cons, List.append_assoc]
            exact append_redraws_after rest.reverse (by simp)
              (merge_redraws valueMeans nextValueMeans lengthMeans nextLengthMeans)
      · exact apart
  case h_2 => exact apart

/-- All parts joined from left to right. What is joined so far redraws the parts so far. -/
theorem join_parts_yields_redrawn (parts reversed : List Waveform) (before after : List Signal)
    (beforeMean : List.Forall₂ (Waveform.Means bindings) reversed before)
    (mean : List.Forall₂ (Waveform.Means bindings) parts after) :
    Yields (Faithful bindings relation) (joinParts reversed parts) fun results =>
      Redraws interpolated bindings (.append (reversed.reverse ++ parts)) (.append results.reverse) := by
  induction mean generalizing reversed before with
  | nil =>
      rw [List.append_nil]
      exact .pure (Redraws.refl _)
  | @cons part meaning rest after means restMean ih =>
      unfold joinParts
      refine (duration_yields means).bind fun length lengthMeans => ?_
      split_ifs with empty
      · -- A waveform with a part that does not last is not plotted.
        refine (ih reversed before beforeMean).mono fun results _ series plots => ?_
        obtain ⟨serieses, allPlot, _⟩ := (plots_append_iff _ _).1 plots
        obtain ⟨partSeries, _, partPlots⟩ := Outcome.target_of_mem allPlot
          (show part ∈ reversed.reverse ++ part :: rest by simp)
        have positive := partPlots.lasts.positive
        rw [partPlots.duration_eq means, lengthMeans.zero empty] at positive
        exact absurd positive (lt_irrefl 0)
      · obtain ⟨joined, joinedMean, _⟩ := join_part_means beforeMean means
        refine (ih (joinPart reversed part) joined joinedMean).mono fun results => Redraws.trans ?_
        rw [List.append_cons]
        exact append_redraws_before rest (by simp) (join_part_redraws beforeMean means)

theorem concatenate_yields_redrawn {parts : List Waveform} {meanings : List Signal}
    (mean : List.Forall₂ (Waveform.Means bindings) parts meanings) :
    Yields (Faithful bindings relation) (concatenate parts) (Redraws interpolated bindings (.append parts)) := by
  obtain ⟨spliced, splicedMean, _⟩ := splice_parts_mean mean
  have joined : Yields (Faithful bindings relation) (joinParts [] (parts.flatMap spliceParts))
      fun results => Redraws interpolated bindings (.append (parts.flatMap spliceParts))
        (.append results.reverse) :=
    join_parts_yields_redrawn _ [] [] spliced List.Forall₂.nil splicedMean
  unfold concatenate
  refine joined.bind fun reversed redraws => ?_
  have whole := (splice_redraws parts).trans redraws
  split
  case h_1 =>
      refine .pure fun series plots => ?_
      obtain ⟨_, none, _⟩ := whole series plots
      obtain ⟨_, each, strung⟩ := (plots_append_iff _ _).1 none
      cases each
      cases strung
  case h_2 part => exact .pure (whole.trans (redraws_single part))
  case h_3 => exact .pure whole

theorem ramp_redraws {start stop length start' stop' length' : Scalar} {first last extent : Decimal}
    (startMeans : Scalar.Means bindings start first) (stopMeans : Scalar.Means bindings stop last)
    (lengthMeans : Scalar.Means bindings length extent)
    (startMeans' : Scalar.Means bindings start' first) (stopMeans' : Scalar.Means bindings stop' last)
    (lengthMeans' : Scalar.Means bindings length' extent) :
    Redraws interpolated bindings (.ramp start stop length) (ramp start' stop' length') := by
  apply redraws_to_leaf
  · intro time shown appears
    unfold ramp at appears ⊢
    split_ifs at appears ⊢ with equal
    · exact appears
    · exact appears
  · intro series plots
    refine ⟨series, ?_, .refl series⟩
    rw [ramp_plots_iff _ startMeans stopMeans lengthMeans] at plots
    unfold ramp
    split_ifs with equal
    · rw [← startMeans'.of_same stopMeans' equal] at plots
      exact (constant_plots_iff _ startMeans' lengthMeans').2 plots
    · exact (ramp_plots_iff _ startMeans' stopMeans' lengthMeans').2 plots

theorem poly_redraws {coefficients coefficients' : List Scalar} {length length' : Scalar}
    {values : List Decimal} {extent : Decimal}
    (mean : List.Forall₂ (Scalar.Means bindings) coefficients values)
    (lengthMeans : Scalar.Means bindings length extent)
    (mean' : List.Forall₂ (Scalar.Means bindings) coefficients' values)
    (lengthMeans' : Scalar.Means bindings length' extent) :
    Redraws interpolated bindings (.poly coefficients length) (poly coefficients' length') := by
  apply redraws_to_leaf
  · intro time shown appears
    unfold poly at appears ⊢
    split at appears
    · exact appears
    · exact appears
    · exact appears
  · intro series plots
    refine ⟨series, ?_, .refl series⟩
    rw [poly_plots_iff _ mean lengthMeans] at plots
    unfold poly
    split
    case h_1 =>
        cases mean'
        exact (constant_plots_iff _ (Scalar.literal_means 0) lengthMeans').2 plots.2
    case h_2 value =>
        cases mean' with
        | cons valueMeans restMean =>
            cases restMean
            refine (constant_plots_iff _ valueMeans lengthMeans').2 ?_
            simpa [Signal.polynomialValue] using plots.2
    case h_3 => exact (poly_plots_iff _ mean' lengthMeans').2 plots

theorem constant_redraws {value length value' length' : Scalar} {number extent : Decimal}
    (valueMeans : Scalar.Means bindings value number)
    (lengthMeans : Scalar.Means bindings length extent)
    (valueMeans' : Scalar.Means bindings value' number)
    (lengthMeans' : Scalar.Means bindings length' extent) :
    Redraws interpolated bindings (.constant value length) (.constant value' length') := by
  apply redraws_to_constant valueMeans' lengthMeans'
  intro series plots
  rcases (constant_plots_iff _ valueMeans lengthMeans).1 plots with ⟨positive, rfl⟩
  exact ⟨(line_spans positive.le).lasts, .refl _⟩

/-- Samples do not change where more of the sampled waveform is known. -/
theorem sample_redraws {step step' : Scalar} {interpolation : Interpolation}
    {meaning meaning' : Signal} {number : Decimal} (means : Waveform.Means bindings inner meaning)
    (means' : Waveform.Means bindings inner' meaning') (refines : Signal.Refines meaning meaning')
    (stepMeans : Scalar.Means bindings step number)
    (stepMeans' : Scalar.Means bindings step' number) :
    Redraws interpolated bindings (.sample inner step interpolation)
      (.sample inner' step' interpolation) := by
  apply redraws_to_leaf
  · exact fun _ _ appears => appears
  · exact fun series plots => ⟨series,
      sample_plots_of_refines series means means' refines stepMeans stepMeans' plots, .refl series⟩

end

end Analog.Canonical
