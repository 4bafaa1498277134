import Analog.Proofs.ShownValues
import Analog.Proofs.WaveformMeaning

/-!
# Waveforms that are plotted

Only sums and slices need values of a series between its breakpoints. The series of a waveform is
plotted if each of them finds exact values where it looks; every other breakpoint comes from a
breakpoint of a part, with a value that is changed exactly or not at all.
-/

set_option autoImplicit false

namespace Analog.Waveform

open Breakpoints LinearSeries

/-- A node for whose series those of its operands may be interpolated. -/
def interpolates : Waveform → Bool
  | .add _ _ => true
  | .slice _ _ => true
  | _ => false

/-- Two series that last equally long, or are not both zero throughout. -/
def Addable (left right : LinearSeries) : Prop :=
  left.duration = right.duration ∨ ∃ time, left.graph time ≠ 0 ∨ right.graph time ≠ 0

theorem nonzero_of_value {left right : LinearSeries} (leftFormed : WellFormed left.points)
    (rightFormed : WellFormed right.points)
    (some : ∃ point ∈ left.points ++ right.points, point.value ≠ 0) :
    ∃ time, left.graph time ≠ 0 ∨ right.graph time ≠ 0 := by
  rcases some with ⟨point, member, nonzero⟩
  have different : point.value.toRat ≠ 0 := by
    rwa [← Decimal.to_rat_zero, Decimal.to_rat_injective.ne_iff]
  refine ⟨point.time, ?_⟩
  rcases List.mem_append.1 member with inLeft | inRight
  · rw [graph_of_mem leftFormed inLeft]
    exact .inl different
  · rw [graph_of_mem rightFormed inRight]
    exact .inr different

variable [Natives]

mutual

/-- A waveform and its series. Every leaf lasts for some time. Where nodes may interpolate, they
find exact values of their operands at all times that count. -/
def Plots (interpolated : Bool) (bindings : ScalarBindings) : Waveform → LinearSeries → Prop
  | .constant value duration, series =>
    Lowers bindings (.constant value duration) series ∧ 0 < series.duration
  | .ramp start stop duration, series =>
    Lowers bindings (.ramp start stop duration) series ∧ 0 < series.duration
  | .poly coefficients duration, series =>
    Lowers bindings (.poly coefficients duration) series ∧ 0 < series.duration
  | .native _ _ _ _, _ => False
  | .negative inner, series =>
    ∃ innerSeries, Plots interpolated bindings inner innerSeries ∧ series = innerSeries.map (-·)
  | .add left right, series =>
    interpolated = true ∧ ∃ leftSeries rightSeries,
      Plots interpolated bindings left leftSeries ∧ Plots interpolated bindings right rightSeries ∧
      leftSeries.plus rightSeries = .ok series ∧ Addable leftSeries rightSeries ∧
      ∀ time ∈ times series.points, ∃ shown, Shows bindings (.add left right) time shown
  | .scale factor inner, series =>
    ∃ number innerSeries, factor.eval bindings = .ok number ∧
      Plots interpolated bindings inner innerSeries ∧ series = innerSeries.map (number * ·)
  | .slice inner interval, series =>
    interpolated = true ∧ ∃ innerSeries lower upper, Plots interpolated bindings inner innerSeries ∧
      sliceBounds bindings (fun _ => (Waveform.slice inner interval).text) interval
        innerSeries.duration = .ok (lower, upper) ∧
      lower < upper ∧ innerSeries.slice lower upper = .ok series ∧
      ∀ time ∈ lower :: upper :: times innerSeries.points, ∃ shown, Shows bindings inner time shown
  | .append parts, series =>
    ∃ serieses, PlotsAll interpolated bindings parts serieses ∧ Strung serieses series
  | .record _ inner _, series => Plots interpolated bindings inner series
  | .sample inner step interpolation, series =>
    Lowers bindings (.sample inner step interpolation) series ∧ 0 < series.duration
  | .smooth _ _ _, _ => False
  | .aligned inner _ _, series => Plots interpolated bindings inner series

def PlotsAll (interpolated : Bool) (bindings : ScalarBindings) :
    List Waveform → List LinearSeries → Prop
  | [], serieses => serieses = []
  | part :: rest, serieses =>
    ∃ first others, Plots interpolated bindings part first ∧
      PlotsAll interpolated bindings rest others ∧ serieses = first :: others

end

variable {interpolated : Bool} {bindings : ScalarBindings}

theorem plots_all_iff (parts : List Waveform) (serieses : List LinearSeries) :
    PlotsAll interpolated bindings parts serieses ↔
      List.Forall₂ (Plots interpolated bindings) parts serieses := by
  induction parts generalizing serieses with
  | nil => simp [PlotsAll]
  | cons part rest ih => simp [PlotsAll, List.forall₂_cons_left_iff, ih]

theorem plots_append_iff (parts : List Waveform) (whole : LinearSeries) :
    Plots interpolated bindings (.append parts) whole ↔
      ∃ serieses, List.Forall₂ (Plots interpolated bindings) parts serieses ∧
        Strung serieses whole := by
  rw [Plots]
  simp only [plots_all_iff]

theorem lowers_unique {waveform : Waveform} {first second : LinearSeries}
    (one : Lowers bindings waveform first) (two : Lowers bindings waveform second) :
    first = second := by
  unfold Lowers at one two
  rw [one, Except.ok.injEq, Option.some.injEq] at two
  exact two

theorem lasts_of_leaf {leaf : Waveform} {series : LinearSeries} (isLeaf : leaf.exposed = [leaf])
    (filled : leaf ≠ .append [])
    (plots : Lowers bindings leaf series ∧ 0 < series.duration) : Lasts series := by
  obtain ⟨lowers, positive⟩ := plots
  obtain ⟨_, _, _, _, _, spans⟩ := spanned_of_lowers leaf series (by simpa [isLeaf] using filled)
    lowers
  exact ⟨spans.formed, positive⟩

theorem Plots.lasts {waveform : Waveform} {series : LinearSeries}
    (plots : Plots interpolated bindings waveform series) : Lasts series := by
  induction waveform using Waveform.parts_induction generalizing series with
  | negative inner ih =>
      obtain ⟨innerSeries, innerPlots, rfl⟩ := plots
      exact map_lasts (ih innerPlots) _
  | scale factor inner ih =>
      obtain ⟨number, innerSeries, _, innerPlots, rfl⟩ := plots
      exact map_lasts (ih innerPlots) _
  | append parts ih =>
      obtain ⟨serieses, each, strung⟩ := (plots_append_iff _ _).1 plots
      refine strung.lasts fun part member => ?_
      obtain ⟨given, givenMember, givenPlots⟩ := Outcome.source_of_mem each member
      exact ih given givenMember givenPlots
  | record name inner side ih => exact ih plots
  | aligned inner alignment fill ih => exact ih plots
  | constant value duration => exact lasts_of_leaf rfl (by simp) plots
  | ramp start stop duration => exact lasts_of_leaf rfl (by simp) plots
  | poly coefficients duration => exact lasts_of_leaf rfl (by simp) plots
  | sample inner step interpolation => exact lasts_of_leaf rfl (by simp) plots
  | native name function duration parameters => exact plots.elim
  | add left right leftIh rightIh =>
      rcases plots with ⟨_, leftSeries, rightSeries, leftPlots, rightPlots, adds, _⟩
      have leftLasts := leftIh leftPlots
      have leftSpans := spans_of_formed leftLasts.formed
      have rightSpans := spans_of_formed (rightIh rightPlots).formed
      have spans := plus_spans leftSpans rightSpans
      rw [← ((plus_ok_iff leftSpans rightSpans series).1 adds).2] at spans
      refine ⟨spans.formed, ?_⟩
      rw [spans.lasts]
      exact lt_max_of_lt_left leftLasts.positive
  | slice inner interval ih =>
      rcases plots with ⟨_, innerSeries, lower, upper, innerPlots, _, proper, sliced, _⟩
      have spans := slice_spans (ih innerPlots).formed sliced
      refine ⟨spans.formed, ?_⟩
      rw [spans.lasts]
      exact sub_pos.2 proper
  | smooth inner radius kernel => exact plots.elim

theorem all_last {parts : List Waveform} {serieses : List LinearSeries}
    (each : List.Forall₂ (Plots interpolated bindings) parts serieses) :
    ∀ series ∈ serieses, Lasts series := by
  intro series member
  rcases Outcome.source_of_mem each member with ⟨_, _, plots⟩
  exact plots.lasts

theorem lasts_of_strung {parts : List Waveform} {serieses : List LinearSeries}
    {whole : LinearSeries} (each : List.Forall₂ (Plots interpolated bindings) parts serieses)
    (strung : Strung serieses whole) : Lasts whole :=
  strung.lasts (all_last each)

theorem Plots.lowers {waveform : Waveform} {series : LinearSeries}
    (plots : Plots interpolated bindings waveform series) : Lowers bindings waveform series := by
  induction waveform using Waveform.parts_induction generalizing series with
  | constant value duration => exact plots.1
  | ramp start stop duration => exact plots.1
  | poly coefficients duration => exact plots.1
  | native name function duration parameters => exact plots.elim
  | negative inner ih =>
      obtain ⟨innerSeries, innerPlots, same⟩ := plots
      exact (negative_lowers_iff _ _).2 ⟨innerSeries, ih innerPlots, same⟩
  | add left right leftIh rightIh =>
      rcases plots with ⟨_, leftSeries, rightSeries, leftPlots, rightPlots, adds, _⟩
      exact (add_lowers_iff _ _ _).2
        ⟨leftSeries, rightSeries, leftIh leftPlots, rightIh rightPlots, adds⟩
  | scale factor inner ih =>
      obtain ⟨number, innerSeries, factorOk, innerPlots, same⟩ := plots
      exact (scale_lowers_iff _ _ _).2 ⟨innerSeries, number, ih innerPlots, factorOk, same⟩
  | slice inner interval ih =>
      rcases plots with ⟨_, innerSeries, lower, upper, innerPlots, bounds, _, sliced, _⟩
      exact (slice_lowers_iff _ _ _).2 ⟨innerSeries, lower, upper, ih innerPlots, bounds, sliced⟩
  | append parts ih =>
      obtain ⟨serieses, each, strung⟩ := (plots_append_iff _ _).1 plots
      have allLower := Outcome.related_of_mem each fun part member _ => ih part member
      have allLast := all_last each
      cases allLower with
      | nil => cases strung
      | cons partLowers othersLower =>
          obtain ⟨firstLasts, othersLast⟩ := List.forall_mem_cons.1 allLast
          exact append_lowers partLowers othersLower
            ((concatenate_iff_strung firstLasts othersLast).2 strung)
  | record name inner side ih => exact ih plots
  | sample inner step interpolation => exact plots.1
  | smooth inner radius kernel => exact plots.elim
  | aligned inner alignment fill ih => exact ih plots

/-- There is no append without parts in a waveform that is plotted. -/
theorem Plots.filled {waveform : Waveform} {series : LinearSeries}
    (plots : Plots interpolated bindings waveform series) : ∀ node ∈ waveform.exposed, node ≠ .append [] := by
  induction waveform using Waveform.parts_induction generalizing series with
  | negative inner ih =>
      obtain ⟨_, innerPlots, _⟩ := plots
      simpa [exposed] using ih innerPlots
  | scale factor inner ih =>
      obtain ⟨_, _, _, innerPlots, _⟩ := plots
      simpa [exposed] using ih innerPlots
  | append parts ih =>
      obtain ⟨serieses, each, strung⟩ := (plots_append_iff _ _).1 plots
      intro node member
      rw [exposed, List.mem_cons, mem_exposed_all] at member
      rcases member with rfl | ⟨part, partMember, inside⟩
      · rintro ⟨⟩
        cases each
        cases strung
      · obtain ⟨_, _, partPlots⟩ := Outcome.target_of_mem each partMember
        exact ih part partMember partPlots node inside
  | record name inner side ih => simpa [exposed] using ih plots
  | aligned inner alignment fill ih => simpa [exposed] using ih plots
  | native name function duration parameters => exact plots.elim
  | add left right leftIh rightIh =>
      rcases plots with ⟨_, _, _, leftPlots, rightPlots, _⟩
      intro node member
      rw [exposed, List.mem_cons, List.mem_append] at member
      rcases member with rfl | inLeft | inRight
      · rintro ⟨⟩
      · exact leftIh leftPlots node inLeft
      · exact rightIh rightPlots node inRight
  | slice inner interval ih =>
      rcases plots with ⟨_, _, _, _, innerPlots, _⟩
      simpa [exposed] using ih innerPlots
  | smooth inner radius kernel => exact plots.elim
  | _ => simp [exposed]

theorem Plots.duration {waveform : Waveform} {series : LinearSeries}
    (plots : Plots interpolated bindings waveform series) :
    waveform.duration bindings = .ok series.duration :=
  duration_of_lowers plots.filled plots.lowers

theorem Plots.duration_eq {waveform : Waveform} {series : LinearSeries} {meaning : Signal}
    (plots : Plots interpolated bindings waveform series) (means : Means bindings waveform meaning) :
    series.duration = meaning.duration := by
  have lasts := plots.duration
  rw [duration_of_signal means.means, Except.ok.injEq] at lasts
  exact lasts.symm

omit [Natives] in
theorem filled_of_lasting {waveform : Waveform}
    (lasting : ∀ node ∈ waveform.exposed, ∃ length, node.duration bindings = .ok length ∧ 0 < length) :
    ∀ node ∈ waveform.exposed, node ≠ .append [] := by
  rintro _ member rfl
  obtain ⟨length, lasts, positive⟩ := lasting _ member
  have empty : length = 0 := (Except.ok.inj lasts).symm
  exact absurd empty positive.ne'

theorem lowered_positive {waveform : Waveform} {series : LinearSeries}
    (lasting : ∀ node ∈ waveform.exposed, ∃ length, node.duration bindings = .ok length ∧ 0 < length)
    (lowers : Lowers bindings waveform series) : 0 < series.duration := by
  obtain ⟨length, lasts, positive⟩ := lasting waveform (self_mem_exposed waveform)
  rw [duration_of_lowers (filled_of_lasting lasting) lowers, Except.ok.injEq] at lasts
  rwa [lasts]

def Reaches (bindings : ScalarBindings) (waveform : Waveform) (series : LinearSeries) : Prop :=
  ∀ time, 0 ≤ time → ∀ shown, Shows bindings waveform time shown →
    series.graph time = shown.toRat

/-- A series whose breakpoints are shown is evaluated exactly where its waveform is shown. -/
theorem Reaches.exact_at {waveform : Waveform} {series : LinearSeries}
    (reaches : Reaches bindings waveform series) (formed : WellFormed series.points)
    (each : ∀ time ∈ times series.points, ∃ shown, Shows bindings waveform time shown)
    {time : Decimal} (nonneg : 0 ≤ time) (here : ∃ shown, Shows bindings waveform time shown) :
    series.ExactAt time := by
  have digits : ∀ point ∈ series.points, point.value.scale ≤ Decimal.quotientPlaces := by
    intro point member
    rcases each point.time (List.mem_map_of_mem member) with ⟨shown, appears⟩
    have value := reaches point.time (formed.time_nonneg member) shown appears
    rw [graph_of_mem formed member] at value
    rw [Decimal.to_rat_injective value]
    exact appears.short
  rcases here with ⟨shown, appears⟩
  have value := reaches time nonneg shown appears
  by_cases reached : time ≤ series.duration
  · have found := eval_eq_of_graph formed digits appears.short value nonneg reached
    unfold ExactAt
    rw [found, value]
  · exact exact_at_outside (.inr (not_le.1 reached))

/-- The operands of a sum are evaluated exactly where the sum has breakpoints. -/
theorem exact_in_sum {left right : Waveform} {leftSeries rightSeries sum : LinearSeries}
    (leftReaches : Reaches bindings left leftSeries)
    (rightReaches : Reaches bindings right rightSeries) (leftFormed : WellFormed leftSeries.points)
    (rightFormed : WellFormed rightSeries.points) (adds : leftSeries.plus rightSeries = .ok sum)
    (each : ∀ time ∈ times sum.points, ∃ shown, Shows bindings (.add left right) time shown) :
    ∀ time ∈ times sum.points, leftSeries.ExactAt time ∧ rightSeries.ExactAt time := by
  have leftSpans := spans_of_formed leftFormed
  have rightSpans := spans_of_formed rightFormed
  have spans := plus_spans leftSpans rightSpans
  have same := ((plus_ok_iff leftSpans rightSpans sum).1 adds).2
  rw [← same] at spans
  have within : ∀ time, time ∈ times leftSeries.points ∨ time ∈ times rightSeries.points →
      time ∈ times sum.points := by
    intro time member
    rw [same, times_merged]
    exact (mem_union _ _ _).2 member
  intro time member
  have nonneg := time_nonneg_of_mem spans.formed member
  constructor
  · have shownLeft : ∀ moment ∈ times sum.points, ∃ shown, Shows bindings left moment shown := by
      intro moment momentMember
      rcases each moment momentMember with ⟨_, shown, _, appears, _⟩
      exact ⟨shown, appears⟩
    exact leftReaches.exact_at leftFormed (fun moment inside => shownLeft _ (within _ (.inl inside)))
      nonneg (shownLeft time member)
  · have shownRight : ∀ moment ∈ times sum.points, ∃ shown, Shows bindings right moment shown := by
      intro moment momentMember
      rcases each moment momentMember with ⟨_, _, shown, _, appears, _⟩
      exact ⟨shown, appears⟩
    exact rightReaches.exact_at rightFormed
      (fun moment inside => shownRight _ (within _ (.inr inside))) nonneg (shownRight time member)

theorem exact_at_cuts {inner : Waveform} {series part : LinearSeries} {lower upper : Decimal}
    (reaches : Reaches bindings inner series) (formed : WellFormed series.points)
    (sliced : series.slice lower upper = .ok part)
    (each : ∀ time ∈ lower :: upper :: times series.points, ∃ shown,
      Shows bindings inner time shown) : series.ExactAt lower ∧ series.ExactAt upper := by
  rcases ((slice_ok_iff lower upper).1 sliced).1 with ⟨nonneg, ordered, _⟩
  have breakpoints : ∀ time ∈ times series.points, ∃ shown, Shows bindings inner time shown :=
    fun time member => each time (by simp [member])
  constructor
  · exact reaches.exact_at formed breakpoints nonneg (each lower (by simp))
  · exact reaches.exact_at formed breakpoints (nonneg.trans ordered) (each upper (by simp))

theorem reaches_of_leaf {leaf : Waveform} {series : LinearSeries}
    (lowers : Lowers bindings leaf series) (time shown : Decimal)
    (appears : LeafShows bindings leaf time shown) : series.graph time = shown.toRat := by
  rcases appears with ⟨found, foundLowers, value, _⟩
  rw [lowers_unique lowers foundLowers]
  exact value

theorem Plots.reaches {waveform : Waveform} {series : LinearSeries}
    (plots : Plots interpolated bindings waveform series) : Reaches bindings waveform series := by
  induction waveform using Waveform.parts_induction generalizing series with
  | constant value duration | ramp start stop duration | poly coefficients duration
  | sample inner step interpolation =>
      intro time _ shown appears
      exact reaches_of_leaf plots.1 time shown appears
  | native name function duration parameters => exact plots.elim
  | smooth inner radius kernel => exact plots.elim
  | negative inner ih =>
      rcases plots with ⟨innerSeries, innerPlots, rfl⟩
      intro time nonneg shown appears
      rcases appears with ⟨innerShown, innerAppears, rfl⟩
      rw [graph_negate, ih innerPlots time nonneg innerShown innerAppears, Decimal.to_rat_neg]
  | add left right leftIh rightIh =>
      rcases plots with ⟨_, leftSeries, rightSeries, leftPlots, rightPlots, adds, _, each⟩
      have leftFormed := leftPlots.lasts.formed
      have rightFormed := rightPlots.lasts.formed
      have exact := exact_in_sum (leftIh leftPlots) (rightIh rightPlots) leftFormed rightFormed adds
        each
      intro time nonneg shown appears
      rcases appears with ⟨leftShown, rightShown, leftAppears, rightAppears, rfl⟩
      rw [graph_plus leftFormed rightFormed adds (fun moment member => (exact moment member).1)
        (fun moment member => (exact moment member).2), Decimal.to_rat_add,
        leftIh leftPlots time nonneg leftShown leftAppears,
        rightIh rightPlots time nonneg rightShown rightAppears]
  | scale factor inner ih =>
      rcases plots with ⟨number, innerSeries, factorOk, innerPlots, rfl⟩
      intro time nonneg shown appears
      rcases (scale_shows_iff factorOk inner time shown).1 appears with
        ⟨innerShown, innerAppears, rfl, _⟩
      rw [graph_map, ih innerPlots time nonneg innerShown innerAppears, Decimal.to_rat_mul]
  | slice inner interval ih =>
      rcases plots with ⟨_, innerSeries, lower, upper, innerPlots, bounds, _, sliced, each⟩
      have formed := innerPlots.lasts.formed
      have reaches := ih innerPlots
      have lowerNonneg := ((slice_ok_iff lower upper).1 sliced).1.1
      have exact := exact_at_cuts reaches formed sliced each
      intro time nonneg shown appears
      rcases appears with ⟨length, lower', upper', lasts, bounds', inside⟩
      rw [innerPlots.duration, Except.ok.injEq] at lasts
      subst lasts
      rw [bounds, Except.ok.injEq, Prod.mk.injEq] at bounds'
      rcases bounds' with ⟨rfl, rfl⟩
      split_ifs at inside with early
      · rw [graph_slice formed sliced exact.1 exact.2 nonneg early]
        exact reaches _ (add_nonneg nonneg lowerNonneg) shown inside
      · rw [inside, Decimal.to_rat_zero]
        apply graph_outside
        rw [(slice_spans formed sliced).lasts]
        exact .inr (not_le.1 early)
  | append parts ih =>
      rcases (plots_append_iff _ _).1 plots with ⟨serieses, each, strung⟩
      intro time nonneg shown appears
      rw [Shows] at appears
      clear plots
      induction strung generalizing parts time with
      | single series =>
          cases each with
          | cons partPlots none =>
              cases none
              rw [shows_in_cons_iff _ _ partPlots.duration] at appears
              split_ifs at appears with early
              · exact ih _ (by simp) partPlots time nonneg shown appears
              · rw [show shown = 0 from appears, Decimal.to_rat_zero]
                exact graph_outside (.inr (not_le.1 early))
      | @cons first later rest others meets restIh =>
          cases each with
          | cons partPlots restPlots =>
              have laterLasts := lasts_of_strung restPlots others
              rw [shows_in_cons_iff _ _ partPlots.duration] at appears
              rw [graph_followed_by partPlots.lasts laterLasts meets]
              split_ifs at appears ⊢ with early
              · exact ih _ (by simp) partPlots time nonneg shown appears
              · exact restIh _ (fun part member => ih part (by simp [member])) restPlots _
                  (sub_nonneg.2 (not_le.1 early).le) appears
  | record name inner side ih => exact ih plots
  | aligned inner alignment fill ih => exact ih plots

theorem Plots.shows_ended {waveform : Waveform} {series : LinearSeries} {time : Decimal}
    (plots : Plots interpolated bindings waveform series) (late : series.duration < time) :
    Shows bindings waveform time 0 := by
  have zeroShort : (0 : Decimal).scale ≤ Decimal.quotientPlaces := Nat.zero_le _
  induction waveform using Waveform.parts_induction generalizing series time with
  | constant value duration | ramp start stop duration | poly coefficients duration
  | sample inner step interpolation =>
      exact leaf_shows_after plots.1 late
  | native name function duration parameters => exact plots.elim
  | smooth inner radius kernel => exact plots.elim
  | negative inner ih =>
      rcases plots with ⟨innerSeries, innerPlots, rfl⟩
      rw [duration_map] at late
      exact ⟨0, ih innerPlots late, neg_zero.symm⟩
  | add left right leftIh rightIh =>
      rcases plots with ⟨_, leftSeries, rightSeries, leftPlots, rightPlots, adds, _⟩
      have leftSpans := spans_of_formed leftPlots.lasts.formed
      have rightSpans := spans_of_formed rightPlots.lasts.formed
      have spans := plus_spans leftSpans rightSpans
      rw [← ((plus_ok_iff leftSpans rightSpans series).1 adds).2] at spans
      rw [spans.lasts, max_lt_iff] at late
      exact ⟨0, 0, leftIh leftPlots late.1, rightIh rightPlots late.2, (add_zero 0).symm⟩
  | scale factor inner ih =>
      rcases plots with ⟨number, innerSeries, factorOk, innerPlots, rfl⟩
      rw [duration_map] at late
      exact ⟨number, 0, factorOk, ih innerPlots late, (mul_zero _).symm, zeroShort⟩
  | slice inner interval ih =>
      rcases plots with ⟨_, innerSeries, lower, upper, innerPlots, bounds, _, sliced, _⟩
      rw [(slice_spans innerPlots.lasts.formed sliced).lasts] at late
      refine ⟨innerSeries.duration, lower, upper, innerPlots.duration, bounds, ?_⟩
      rw [if_neg (not_le.2 late)]
  | append parts ih =>
      rcases (plots_append_iff _ _).1 plots with ⟨serieses, each, strung⟩
      rw [Shows]
      clear plots
      induction strung generalizing parts time with
      | single series =>
          cases each with
          | cons partPlots none =>
              cases none
              rw [shows_in_cons_iff _ _ partPlots.duration, if_neg (not_le.2 late)]
              rfl
      | @cons first later rest others meets restIh =>
          cases each with
          | cons partPlots restPlots =>
              have laterLasts := lasts_of_strung restPlots others
              rw [(followed_by_spans partPlots.lasts laterLasts).lasts] at late
              have past : first.duration < time :=
                (le_add_of_nonneg_right laterLasts.positive.le).trans_lt late
              rw [shows_in_cons_iff _ _ partPlots.duration, if_neg (not_le.2 past)]
              exact restIh _ (fun part member => ih part (by simp [member]))
                (lt_sub_iff_add_lt'.2 late) restPlots
  | record name inner side ih => exact ih plots late
  | aligned inner alignment fill ih => exact ih plots late

/-- What is shown of some parts after others, counted from the end of these. -/
theorem shows_in_append_iff {before : List Waveform} {whole : LinearSeries}
    (plots : Plots interpolated bindings (.append before) whole) (after : List Waveform)
    (time shown : Decimal) :
    ShowsIn bindings (before ++ after) time shown ↔
      if time ≤ whole.duration then ShowsIn bindings before time shown
      else ShowsIn bindings after (time - whole.duration) shown := by
  rcases (plots_append_iff _ _).1 plots with ⟨serieses, each, strung⟩
  clear plots
  induction strung generalizing before time with
  | single series =>
      cases each with
      | cons partPlots none =>
          cases none
          rw [List.singleton_append, shows_in_cons_iff _ _ partPlots.duration,
            shows_in_cons_iff _ _ partPlots.duration]
          split_ifs
          · rfl
          · rfl
  | @cons first later rest others meets restIh =>
      cases each with
      | @cons part _ others' _ partPlots restPlots =>
          have laterLasts := lasts_of_strung restPlots others
          rw [List.cons_append, shows_in_cons_iff _ _ partPlots.duration,
            shows_in_cons_iff _ _ partPlots.duration, restIh _ restPlots,
            (followed_by_spans partPlots.lasts laterLasts).lasts, sub_sub]
          simp only [sub_le_iff_le_add']
          by_cases early : time ≤ first.duration
          · have inWhole : time ≤ first.duration + later.duration :=
              early.trans (le_add_of_nonneg_right laterLasts.positive.le)
            simp only [if_pos early, if_pos inWhole]
          · simp only [if_neg early]

/-- What is asked of a node that looks at its operands between their breakpoints: it finds exact
values, and operands of different durations are not both zero throughout. -/
def ShownInFull (bindings : ScalarBindings) : Waveform → Prop
  | .add left right =>
    ∀ leftSeries rightSeries, Lowers bindings left leftSeries →
      Lowers bindings right rightSeries →
      (leftSeries.duration = rightSeries.duration ∨
        ∃ point ∈ leftSeries.points ++ rightSeries.points, point.value ≠ 0) ∧
      ∀ time ∈ times leftSeries.points ++ times rightSeries.points, ∃ shown,
        Shows bindings (.add left right) time shown
  | .slice inner interval =>
    ∀ series lower upper, Lowers bindings inner series →
      sliceBounds bindings (fun _ => (Waveform.slice inner interval).text) interval
        series.duration = .ok (lower, upper) →
      ∀ time ∈ lower :: upper :: times series.points, ∃ shown, Shows bindings inner time shown
  | _ => True

theorem shown_of_not_interpolates {node : Waveform} (plain : node.interpolates = false) :
    node.ShownInFull bindings := by
  cases node with
  | add left right => exact absurd plain (by simp [interpolates])
  | slice inner interval => exact absurd plain (by simp [interpolates])
  | _ => exact trivial

theorem sum_plots {left right : Waveform} {leftSeries rightSeries series : LinearSeries}
    (full : ShownInFull bindings (.add left right))
    (leftPlots : Plots true bindings left leftSeries)
    (rightPlots : Plots true bindings right rightSeries)
    (adds : leftSeries.plus rightSeries = .ok series) :
    Plots true bindings (.add left right) series := by
  have leftFormed := leftPlots.lasts.formed
  have rightFormed := rightPlots.lasts.formed
  rcases full leftSeries rightSeries leftPlots.lowers rightPlots.lowers with ⟨addable, each⟩
  refine ⟨rfl, leftSeries, rightSeries, leftPlots, rightPlots, adds, ?_, ?_⟩
  · exact addable.imp_right (nonzero_of_value leftFormed rightFormed)
  · rw [((plus_ok_iff (spans_of_formed leftFormed) (spans_of_formed rightFormed) series).1 adds).2,
      times_merged]
    intro time member
    exact each time (List.mem_append.2 ((mem_union _ _ _).1 member))

/-- A waveform that lowers is plotted, if all nodes outside samples last for some time and those
that interpolate are shown in full. -/
theorem plots_of_lowers {waveform : Waveform} {series : LinearSeries}
    (full : ∀ node ∈ waveform.exposed, node.interpolates = true →
      interpolated = true ∧ node.ShownInFull bindings)
    (lasting : ∀ node ∈ waveform.exposed, ∃ length, node.duration bindings = .ok length ∧ 0 < length)
    (lowers : Lowers bindings waveform series) : Plots interpolated bindings waveform series := by
  induction waveform using Waveform.parts_induction generalizing series with
  | constant value duration => exact ⟨lowers, lowered_positive lasting lowers⟩
  | ramp start stop duration => exact ⟨lowers, lowered_positive lasting lowers⟩
  | poly coefficients duration => exact ⟨lowers, lowered_positive lasting lowers⟩
  | native name function duration parameters => exact absurd lowers (native_not_lowers _ _ _ _ _)
  | negative inner ih =>
      obtain ⟨innerSeries, innerLowers, rfl⟩ := (negative_lowers_iff _ _).1 lowers
      exact ⟨innerSeries, ih (fun node member => full node (by simp [exposed, member]))
        (fun node member => lasting node (by simp [exposed, member])) innerLowers, rfl⟩
  | add left right leftIh rightIh =>
      rcases full _ (self_mem_exposed _) rfl with ⟨rfl, shown⟩
      rcases (add_lowers_iff _ _ _).1 lowers with
        ⟨leftSeries, rightSeries, leftLowers, rightLowers, adds⟩
      have leftPlots := leftIh (fun node member => full node (by simp [exposed, member]))
        (fun node member => lasting node (by simp [exposed, member])) leftLowers
      have rightPlots := rightIh (fun node member => full node (by simp [exposed, member]))
        (fun node member => lasting node (by simp [exposed, member])) rightLowers
      exact sum_plots shown leftPlots rightPlots adds
  | scale factor inner ih =>
      obtain ⟨innerSeries, number, innerLowers, factorOk, same⟩ := (scale_lowers_iff _ _ _).1 lowers
      exact ⟨number, innerSeries, factorOk,
        ih (fun node member => full node (by simp [exposed, member]))
          (fun node member => lasting node (by simp [exposed, member])) innerLowers, same⟩
  | slice inner interval ih =>
      rcases full _ (self_mem_exposed _) rfl with ⟨rfl, shown⟩
      rcases (slice_lowers_iff _ _ _).1 lowers with
        ⟨innerSeries, lower, upper, innerLowers, bounds, sliced⟩
      have innerPlots := ih (fun node member => full node (by simp [exposed, member]))
        (fun node member => lasting node (by simp [exposed, member])) innerLowers
      have positive := lowered_positive lasting lowers
      rw [(slice_spans innerPlots.lasts.formed sliced).lasts] at positive
      exact ⟨rfl, innerSeries, lower, upper, innerPlots, bounds, sub_pos.1 positive, sliced,
        shown innerSeries lower upper innerLowers bounds⟩
  | append parts ih =>
      obtain ⟨first, rest, part, others, rfl, partLowers, othersLower, joins⟩ :=
        (append_lowers_iff _ (filled_of_lasting lasting) _).1 lowers
      have each := Outcome.related_of_mem (List.Forall₂.cons partLowers othersLower)
        fun given member _ => ih given member (exposed_of_part full given member)
          (exposed_of_part lasting given member)
      have allLast := all_last each
      obtain ⟨firstLasts, restLast⟩ := List.forall_mem_cons.1 allLast
      exact (plots_append_iff _ _).2
        ⟨first :: rest, each, (concatenate_iff_strung firstLasts restLast).1 joins⟩
  | record name inner side ih =>
      exact ih (fun node member => full node (by simp [exposed, member]))
        (fun node member => lasting node (by simp [exposed, member])) lowers
  | sample inner step interpolation => exact ⟨lowers, lowered_positive lasting lowers⟩
  | smooth inner radius kernel => exact absurd lowers (smooth_not_lowers _ _ _ _)
  | aligned inner alignment fill ih =>
      exact ih (fun node member => full node (by simp [exposed, member]))
        (fun node member => lasting node (by simp [exposed, member])) lowers

section Known

omit [Natives] in
theorem line_lasts_iff {length first last : Decimal} {series : LinearSeries} :
    (0 ≤ length ∧ series = line length first last) ∧ 0 < series.duration ↔
      0 < length ∧ series = line length first last := by
  constructor
  · rintro ⟨⟨nonneg, rfl⟩, positive⟩
    rw [(line_spans nonneg).lasts] at positive
    exact ⟨positive, rfl⟩
  · rintro ⟨positive, rfl⟩
    refine ⟨⟨positive.le, rfl⟩, ?_⟩
    rwa [(line_spans positive.le).lasts]

variable {length : Decimal} (series : LinearSeries)

theorem constant_plots_iff {value duration : Scalar} {number : Decimal}
    (valueMeans : Scalar.Means bindings value number)
    (durationMeans : Scalar.Means bindings duration length) :
    Plots interpolated bindings (.constant value duration) series ↔
      0 < length ∧ series = line length number number := by
  rw [Plots, constant_lowers_iff, ← line_lasts_iff, valueMeans.evaluates, durationMeans.evaluates]
  simp

theorem ramp_plots_iff {start stop duration : Scalar} {first last : Decimal}
    (startMeans : Scalar.Means bindings start first) (stopMeans : Scalar.Means bindings stop last)
    (durationMeans : Scalar.Means bindings duration length) :
    Plots interpolated bindings (.ramp start stop duration) series ↔
      0 < length ∧ series = line length first last := by
  rw [Plots, ramp_lowers_iff, ← line_lasts_iff, startMeans.evaluates, stopMeans.evaluates,
    durationMeans.evaluates]
  simp

theorem poly_plots_iff {coefficients : List Scalar} {duration : Scalar} {values : List Decimal}
    (mean : List.Forall₂ (Scalar.Means bindings) coefficients values)
    (durationMeans : Scalar.Means bindings duration length) :
    Plots interpolated bindings (.poly coefficients duration) series ↔
      (Lowering.significant values).length ≤ 2 ∧ 0 < length ∧
        series = line length (Signal.polynomialValue values 0)
          (Signal.polynomialValue values length) := by
  rw [Plots, poly_lowers_iff, ← line_lasts_iff, eval_all_of_means mean, durationMeans.evaluates]
  simp
  tauto

theorem scale_plots_iff {factor : Scalar} {inner : Waveform} {number : Decimal}
    (factorMeans : Scalar.Means bindings factor number) :
    Plots interpolated bindings (.scale factor inner) series ↔
      ∃ innerSeries, Plots interpolated bindings inner innerSeries ∧ series = innerSeries.map (number * ·) := by
  rw [Plots, factorMeans.evaluates]
  simp

/-- Samples do not change where more of the sampled waveform is known. -/
theorem sample_plots_of_refines {inner other : Waveform} {step otherStep : Scalar}
    {interpolation : Interpolation} {meaning otherMeaning : Signal} {number : Decimal}
    (means : Means bindings inner meaning) (otherMeans : Means bindings other otherMeaning)
    (refines : Signal.Refines meaning otherMeaning) (stepMeans : Scalar.Means bindings step number)
    (otherStepMeans : Scalar.Means bindings otherStep number)
    (plots : Plots interpolated bindings (.sample inner step interpolation) series) :
    Plots interpolated bindings (.sample other otherStep interpolation) series := by
  rw [Plots, sample_lowers_iff] at plots ⊢
  obtain ⟨⟨isLinear, found, points, foundMeans, sampled, same⟩, positive⟩ := plots
  rw [means.means, Except.ok.injEq] at foundMeans
  subst foundMeans
  rw [stepMeans.evaluates] at sampled
  refine ⟨⟨isLinear, otherMeaning, points, otherMeans.means, ?_, same⟩, positive⟩
  rw [otherStepMeans.evaluates]
  exact refines.sample_points (fun _ found => found) sampled

end Known

end Analog.Waveform
