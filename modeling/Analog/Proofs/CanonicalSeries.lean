import Analog.Proofs.KnownForms
import Analog.Proofs.RedrawnSums
import Analog.Waveform.Builtin

/-!
# Series of canonical waveforms

What simplification does to the series of a waveform. Where nothing is interpolated it may lose
breakpoints between equal values, and stays the same function. Where something is, the rules that
move factors change which values are rounded and which must be zero, and the series stays the same
if the values that are looked at have few digits and no factor that is zero is taken out.
-/

set_option autoImplicit false

namespace Analog.Canonical

open Waveform LinearSeries

section

variable [Natives] {interpolated : Bool} {bindings : ScalarBindings}
  {given result inner inner' : Waveform}

/-- The result has the meaning of the given waveform, and its series where that is plotted. -/
def SameSeries (interpolated : Bool) (bindings : ScalarBindings) (given result : Waveform) : Prop :=
  SameMeaning bindings given result ∧ Redraws interpolated bindings given result

theorem SameSeries.of_same {other : Waveform}
    (same : SameSeries interpolated bindings given result) {meaning : Signal}
    (otherMeans : Waveform.Means bindings other meaning) (equal : given.same other = true) :
    SameSeries interpolated bindings other result := by
  obtain ⟨_, means, _⟩ := same.1
  refine ⟨same.1.of_same otherMeans equal, ?_⟩
  exact (same_redraws _ _ _ _ means otherMeans equal).2.trans same.2

/-- A result that stands for a meaning and redraws the given waveform. -/
def Redrawn (interpolated : Bool) (bindings : ScalarBindings) (given : Waveform) (meaning : Signal)
    (result : Waveform) : Prop :=
  Stands bindings meaning result ∧ Redraws interpolated bindings given result

theorem remember_waveform_redrawn {α : Type} {meaning : Signal} {parts : Simplifying α}
    {simplify : α → Simplifying Waveform} {good : α → Prop}
    (means : Waveform.Means bindings given meaning)
    (partsYield : Yields (Faithful bindings (SameSeries interpolated bindings)) parts good)
    (simplifyYields : ∀ canonicalParts, good canonicalParts →
      Yields (Faithful bindings (SameSeries interpolated bindings)) (simplify canonicalParts)
        (Redrawn interpolated bindings given meaning)) :
    Yields (Faithful bindings (SameSeries interpolated bindings)) (rememberWaveform given parts simplify)
      (Redrawn interpolated bindings given meaning) := by
  apply Yields.remembering _ _ partsYield simplifyYields
  · intro memo remembers known found
    obtain ⟨other, equal, ⟨otherMeaning, otherMeans, stands⟩, redraws⟩ :=
      remembers.waveforms.find found
    have alike := Waveform.alike_of_same _ _ _ _ means otherMeans equal
    exact ⟨stands.mono alike.forth, (same_redraws _ _ _ _ means otherMeans equal).1.trans redraws⟩
  · rintro result ⟨stands, redraws⟩ memo remembers
    have fresh : SameSeries interpolated bindings given result := ⟨⟨meaning, means, stands⟩, redraws⟩
    have itself : SameSeries interpolated bindings result result := by
      obtain ⟨found, resultMeans, _⟩ := stands
      exact ⟨⟨found, resultMeans, stands_itself resultMeans⟩, Redraws.refl result⟩
    refine ⟨remembers.scalars, ?_⟩
    refine (remembers.waveforms.insert fresh ?_).insert itself ?_
    · rintro other old ⟨⟨_, otherMeans, _⟩, _⟩ equal
      exact fresh.of_same otherMeans equal
    · rintro other old ⟨⟨_, otherMeans, _⟩, _⟩ equal
      exact itself.of_same otherMeans equal

theorem waveforms_yield_redrawn {parts : List Waveform} {meanings : List Signal}
    (each : ∀ part ∈ parts, ∀ meaning, Waveform.Means bindings part meaning →
      Yields (Faithful bindings (SameSeries interpolated bindings)) (waveform part)
        (Redrawn interpolated bindings part meaning))
    (mean : List.Forall₂ (Waveform.Means bindings) parts meanings) :
    Yields (Faithful bindings (SameSeries interpolated bindings)) (waveforms parts) fun results =>
      (∃ found, List.Forall₂ (Waveform.Means bindings) results found ∧
        List.Forall₂ Signal.Refines meanings found) ∧
      List.Forall₂ (Redraws interpolated bindings) parts results := by
  induction mean with
  | nil =>
      rw [waveforms]
      exact .pure ⟨⟨[], List.Forall₂.nil, List.Forall₂.nil⟩, List.Forall₂.nil⟩
  | cons means _ ih =>
      rw [waveforms]
      refine (each _ (by simp) _ means).bind fun part' redrawn => ?_
      refine (ih fun other member => each other (by simp [member])).bind fun rest' restRedrawn => ?_
      obtain ⟨⟨found, foundMeans, refines⟩, redraws⟩ := redrawn
      obtain ⟨⟨others, othersMean, othersRefine⟩, othersRedraw⟩ := restRedrawn
      exact .pure ⟨⟨found :: others, List.Forall₂.cons foundMeans othersMean,
        List.Forall₂.cons refines othersRefine⟩, List.Forall₂.cons redraws othersRedraw⟩

/-- The canonical form of a waveform stands for its meaning and redraws it. -/
theorem waveform_yields_redrawn (given : Waveform) (meaning : Signal)
    (means : Waveform.Means bindings given meaning) (lasting : Lasting bindings given) :
    Yields (Faithful bindings (SameSeries interpolated bindings)) (waveform given)
      (Redrawn interpolated bindings given meaning) := by
  induction given using Waveform.parts_induction generalizing meaning with
  | constant value length =>
      rw [waveform]
      obtain ⟨_, lengthNumber, valueMeans, lengthMeans, nonneg, rfl⟩ :=
        (Waveform.constant_means_iff _ _ _).1 means
      refine remember_waveform_redrawn means (.pure trivial) fun _ (_ : True) => ?_
      refine (scalar_yields value _ valueMeans).bind fun value' valueMeans' => ?_
      refine (scalar_yields length _ lengthMeans).bind fun length' lengthMeans' => .pure ⟨?_, ?_⟩
      · exact stands_itself ((Waveform.constant_means_iff _ _ _).2
          ⟨_, lengthNumber, valueMeans', lengthMeans', nonneg, rfl⟩)
      · exact constant_redraws valueMeans lengthMeans valueMeans' lengthMeans'
  | ramp start stop length =>
      rw [waveform]
      obtain ⟨_, _, _, startMeans, stopMeans, lengthMeans, nonneg, rfl⟩ :=
        (Waveform.ramp_means_iff _ _ _ _).1 means
      refine remember_waveform_redrawn means (.pure trivial) fun _ (_ : True) => ?_
      refine (scalar_yields start _ startMeans).bind fun start' startMeans' => ?_
      refine (scalar_yields stop _ stopMeans).bind fun stop' stopMeans' => ?_
      refine (scalar_yields length _ lengthMeans).bind fun length' lengthMeans' => .pure ⟨?_, ?_⟩
      · exact ramp_stands startMeans' stopMeans' lengthMeans' nonneg
      · exact ramp_redraws startMeans stopMeans lengthMeans startMeans' stopMeans' lengthMeans'
  | poly coefficients length =>
      rw [waveform]
      obtain ⟨_, _, mean, lengthMeans, nonneg, rfl⟩ := (Waveform.poly_means_iff _ _ _).1 means
      refine remember_waveform_redrawn means (.pure trivial) fun _ (_ : True) => ?_
      refine (scalars_yield (fun operand _ => scalar_yields operand) mean).bind
        fun coefficients' mean' => ?_
      refine (scalar_yields length _ lengthMeans).bind fun length' lengthMeans' => .pure ⟨?_, ?_⟩
      · exact poly_stands mean' lengthMeans' nonneg
      · exact poly_redraws mean lengthMeans mean' lengthMeans'
  | native name function length parameters =>
      rw [waveform]
      obtain ⟨values, lengthNumber, mean, lengthMeans, nonneg, rfl⟩ :=
        (Waveform.native_means_iff _ _ _ _ _).1 means
      refine remember_waveform_redrawn means (.pure trivial) fun _ (_ : True) => ?_
      refine (scalar_yields length _ lengthMeans).bind fun length' lengthMeans' => ?_
      refine (scalars_yield (fun operand _ => scalar_yields operand) mean).bind
        fun parameters' mean' => ?_
      refine .pure ⟨?_, fun _ plots => plots.elim⟩
      exact stands_itself ((Waveform.native_means_iff _ _ _ _ _).2
        ⟨values, lengthNumber, mean', lengthMeans', nonneg, rfl⟩)
  | negative inner ih =>
      rw [waveform]
      obtain ⟨innerMeaning, innerMeans, rfl⟩ := (Waveform.negative_means_iff _ _).1 means
      refine remember_waveform_redrawn means
        (ih _ innerMeans (lasting.child (by simp [Waveform.children]))) fun inner' redrawn => ?_
      obtain ⟨⟨found, foundMeans, refines⟩, redraws⟩ := redrawn
      exact (yields_mono (negate_yields foundMeans) refines.negate).both
        ((negate_yields_redrawn foundMeans).mono fun _ => (negative_redraws redraws).trans)
  | add left right leftIh rightIh =>
      rw [waveform]
      obtain ⟨leftMeaning, rightMeaning, leftMeans, rightMeans, rfl⟩ :=
        (Waveform.add_means_iff _ _ _).1 means
      have leftLasting : Lasting bindings left := lasting.child (by simp [Waveform.children])
      have rightLasting : Lasting bindings right := lasting.child (by simp [Waveform.children])
      have leftPositive := leftLasting.positive leftMeans
      have rightPositive := rightLasting.positive rightMeans
      refine remember_waveform_redrawn means
        ((leftIh _ leftMeans leftLasting).pair (rightIh _ rightMeans rightLasting)) ?_
      rintro ⟨left', right'⟩ ⟨⟨leftStands, leftRedraws⟩, rightStands, rightRedraws⟩
      obtain ⟨leftFound, leftMeans', leftRefines⟩ := leftStands
      obtain ⟨rightFound, rightMeans', rightRefines⟩ := rightStands
      rw [← leftRefines.lasts] at leftPositive
      rw [← rightRefines.lasts] at rightPositive
      exact (yields_mono (add_yields _ _ _ _ leftMeans' rightMeans' leftPositive rightPositive)
        (leftRefines.plus rightRefines)).both
        ((add_yields_redrawn _ _ _ _ _ leftMeans' rightMeans' leftPositive rightPositive).mono
          fun _ => (add_redraws leftRedraws rightRedraws).trans)
  | scale factor inner ih =>
      rw [waveform]
      obtain ⟨number, innerMeaning, factorMeans, innerMeans, rfl⟩ :=
        (Waveform.scale_means_iff _ _ _).1 means
      refine remember_waveform_redrawn means
        (ih _ innerMeans (lasting.child (by simp [Waveform.children]))) fun inner' redrawn => ?_
      obtain ⟨⟨found, foundMeans, refines⟩, redraws⟩ := redrawn
      refine (scalar_yields factor _ factorMeans).bind fun factor' factorMeans' => ?_
      exact (yields_mono (scale_yields factorMeans' foundMeans) (refines.scaled (.ok number))).both
        ((scale_yields_redrawn factorMeans' foundMeans).mono fun _ =>
          (scale_redraws factorMeans factorMeans' redraws).trans)
  | slice inner bounds ih =>
      rw [waveform]
      obtain ⟨start, stop, innerMeaning, startMeans, stopMeans, innerMeans, ordered, rfl⟩ :=
        (Waveform.slice_means_iff _ _ _).1 means
      refine remember_waveform_redrawn means
        (ih _ innerMeans (lasting.child (by simp [Waveform.children]))) fun inner' redrawn => ?_
      obtain ⟨⟨found, foundMeans, refines⟩, redraws⟩ := redrawn
      refine (interval_yields startMeans stopMeans).bind fun bounds' boundsMean => ?_
      have cutsOut : CutsOut bindings bounds innerMeaning.duration (start.getD 0)
          (stop.getD innerMeaning.duration) :=
        ⟨⟨start, stop, startMeans, stopMeans, rfl, rfl⟩, ordered.1, ordered.2.1, ordered.2.2⟩
      have cutsOut' : CutsOut bindings bounds' innerMeaning.duration (start.getD 0)
          (stop.getD innerMeaning.duration) :=
        ⟨⟨start, stop, boundsMean.1, boundsMean.2, rfl, rfl⟩, ordered.1, ordered.2.1, ordered.2.2⟩
      have cutAgain := slice_redraws cutsOut cutsOut' (duration_of_signal innerMeans.means) redraws
      have cutsFound : CutsOut bindings bounds' found.duration (start.getD 0)
          (stop.getD innerMeaning.duration) := by
        rw [refines.lasts]
        exact cutsOut'
      exact (yields_mono (cut_yields bounds' inner' _ _ _ foundMeans cutsFound)
        (refines.cut _ _)).both
        ((cut_yields_redrawn bounds' inner' _ _ _ _ foundMeans cutsFound).mono fun _ =>
          cutAgain.trans)
  | append parts ih =>
      rw [waveform]
      obtain ⟨meanings, mean, rfl⟩ := (Waveform.append_means_iff _ _).1 means
      have positive := lasting.positive means
      refine remember_waveform_redrawn means (waveforms_yield_redrawn (fun part member partMeaning
        partMeans => ih part member partMeaning partMeans (lasting.child member)) mean)
        fun parts' redrawn => ?_
      obtain ⟨⟨found, foundMean, refine'⟩, redraw⟩ := redrawn
      have refines := Signal.concatenate_refines refine' (Waveform.Means.all_bounded mean)
        (Waveform.Means.all_bounded foundMean)
      rw [← refines.lasts] at positive
      exact (yields_mono (concatenate_yields foundMean positive) refines).both
        ((concatenate_yields_redrawn foundMean).mono fun _ => (append_redraws_each redraw).trans)
  | record name inner side ih =>
      rw [waveform]
      refine remember_waveform_redrawn means (ih _ ((Waveform.record_means_iff _ _ _ _).1 means)
        (lasting.child (by simp [Waveform.children]))) fun inner' redrawn => .pure ?_
      obtain ⟨⟨found, foundMeans, refines⟩, redraws⟩ := redrawn
      exact ⟨⟨found, (Waveform.record_means_iff _ _ _ _).2 foundMeans, refines⟩, redraws⟩
  | sample inner step interpolation ih =>
      rw [waveform]
      obtain ⟨number, innerMeaning, stepMeans, innerMeans, rfl⟩ :=
        (Waveform.sample_means_iff _ _ _ _).1 means
      refine remember_waveform_redrawn means
        (ih _ innerMeans (lasting.child (by simp [Waveform.children]))) fun inner' redrawn => ?_
      obtain ⟨⟨found, foundMeans, refines⟩, _⟩ := redrawn
      refine (scalar_yields step _ stepMeans).bind fun step' stepMeans' => .pure ⟨?_, ?_⟩
      · exact ⟨_, (Waveform.sample_means_iff _ _ _ _).2
          ⟨number, found, stepMeans', foundMeans, rfl⟩, refines.sampled (.ok number) interpolation⟩
      · exact sample_redraws innerMeans foundMeans refines stepMeans stepMeans'
  | smooth inner radius kernel ih =>
      rw [waveform]
      obtain ⟨number, innerMeaning, radiusMeans, innerMeans, rfl⟩ :=
        (Waveform.smooth_means_iff _ _ _ _).1 means
      refine remember_waveform_redrawn means
        (ih _ innerMeans (lasting.child (by simp [Waveform.children]))) fun inner' redrawn => ?_
      obtain ⟨⟨found, foundMeans, refines⟩, _⟩ := redrawn
      refine (scalar_yields radius _ radiusMeans).bind fun radius' radiusMeans' => ?_
      refine .pure ⟨?_, fun _ plots => plots.elim⟩
      exact ⟨_, (Waveform.smooth_means_iff _ _ _ _).2
        ⟨number, found, radiusMeans', foundMeans, rfl⟩, refines.smoothed kernel (.ok number)⟩
  | aligned inner alignment value ih =>
      rw [waveform]
      obtain ⟨each, innerMeans⟩ := (Waveform.aligned_means_iff _ _ _ _).1 means
      refine remember_waveform_redrawn means
        (ih _ innerMeans (lasting.child (by simp [Waveform.children]))) fun inner' redrawn => ?_
      obtain ⟨⟨found, foundMeans, refines⟩, redraws⟩ := redrawn
      refine (fill_yields each).bind fun value' each' => .pure ⟨?_, redraws⟩
      exact ⟨found, (Waveform.aligned_means_iff _ _ _ _).2 ⟨each', foundMeans⟩, refines⟩

/-- The canonical form of a waveform that is plotted is made and plotted as well. -/
theorem canonical_waveform_plotted (tidied : ∀ node ∈ given.nodes, ∀ scalar ∈ node.scalars, scalar.tidy = true)
    (exact : ∀ node ∈ given.nodes, ∀ scalar ∈ node.scalars, scalar.ExactByOne bindings)
    (evaluates : ∀ node ∈ given.nodes, ∀ scalar ∈ node.scalars,
      ∃ value, scalar.eval bindings = .ok value)
    (lasting : ∀ node ∈ given.nodes, ∃ length, node.duration bindings = .ok length ∧ 0 < length)
    {series : LinearSeries} (plots : Plots interpolated bindings given series) :
    ∃ result kept, afresh (waveform given) = .ok result ∧ Plots interpolated bindings result kept ∧
      Preserves interpolated series kept := by
  have proper : Waveform.Proper bindings given := by
    intro node nodeMember scalar member
    rcases evaluates node nodeMember scalar member with ⟨value, evaluated⟩
    exact ⟨value, tidied node nodeMember scalar member, exact node nodeMember scalar member,
      evaluated⟩
  rcases ((Waveform.each_node_iff _ given).1 lasting).1 with ⟨length, lasts, _⟩
  rcases Waveform.signal_of_duration lasts with ⟨meaning, means, rfl⟩
  rcases (waveform_yields_redrawn given meaning ⟨proper, means⟩ lasting).afresh remembers_nothing
    with ⟨result, made, _, redraws⟩
  rcases redraws series plots with ⟨kept, keptPlots, keeps, _⟩
  exact ⟨result, kept, made, keptPlots, keeps⟩

/-- A canonical waveform has the series of the given one, as a function. The operands of each
minimum and maximum are all different, as its constructor leaves them, and no digit is lost in a
quotient by one; every scalar has a value, and every node lasts for some time. Where a sum or a
slice outside samples looks at its operands, these have exact values with few digits, and operands
of a sum that do not last equally long are not both zero throughout. The breakpoints have few
digits, unless there is no sum and no slice outside samples; then the series agree at every time. -/
theorem canonical_waveform_keeps_series (given : Waveform)
    (tidied : ∀ node ∈ given.nodes, ∀ scalar ∈ node.scalars, scalar.tidy = true)
    (exact : ∀ node ∈ given.nodes, ∀ scalar ∈ node.scalars, scalar.ExactByOne bindings)
    (evaluates : ∀ node ∈ given.nodes, ∀ scalar ∈ node.scalars,
      ∃ value, scalar.eval bindings = .ok value)
    (lasting : ∀ node ∈ given.nodes, ∃ length, node.duration bindings = .ok length ∧ 0 < length)
    (full : ∀ node ∈ given.exposed, node.ShownInFull bindings) {series : LinearSeries}
    (digits : (∀ node ∈ given.exposed, node.interpolates = false) ∨
      ∀ point ∈ series.points, point.value.scale ≤ Decimal.quotientPlaces)
    (lowered : lowerLinear bindings given = .ok series) :
    ∃ result kept, afresh (waveform given) = .ok result ∧
      lowerLinear bindings result = .ok kept ∧ series.same kept = true ∧
      ((∀ node ∈ given.exposed, node.interpolates = false) →
        ∀ time, kept.eval time = series.eval time) := by
  have lowers := (lower_linear_ok_iff _ _).1 lowered
  have exposedLast : ∀ node ∈ given.exposed,
      ∃ length, node.duration bindings = .ok length ∧ 0 < length :=
    fun node member => lasting node (mem_nodes_of_exposed given node member)
  by_cases plain : ∀ node ∈ given.exposed, node.interpolates = false
  · have plots : Plots false bindings given series := by
      apply plots_of_lowers _ exposedLast lowers
      intro node member interpolates
      rw [plain node member] at interpolates
      exact absurd interpolates (by simp)
    rcases canonical_waveform_plotted tidied exact evaluates lasting plots with
      ⟨result, kept, made, keptPlots, keeps⟩
    have sameDuration : kept.duration = series.duration := keeps.straightens.lasts
    have sameValues := eval_eq_of_thins plots.lasts.formed (keeps.thins rfl)
    refine ⟨result, kept, made, (lower_linear_ok_iff _ _).2 keptPlots.lowers, ?_,
      fun _ => sameValues⟩
    unfold LinearSeries.same
    simp [sameDuration, sameValues]
  · have short := digits.resolve_left plain
    have plots : Plots true bindings given series :=
      plots_of_lowers (fun node member _ => ⟨rfl, full node member⟩) exposedLast lowers
    rcases canonical_waveform_plotted tidied exact evaluates lasting plots with
      ⟨result, kept, made, keptPlots, keeps⟩
    have same := keeps.straightens.same plots.lasts.formed keptPlots.lasts.formed short
    exact ⟨result, kept, made, (lower_linear_ok_iff _ _).2 keptPlots.lowers, same,
      fun noneInterpolates => absurd noneInterpolates plain⟩

end

/-- A line that is scaled twice, two constants of the value it reaches, and samples of a sum. -/
def risenThenSampled : Waveform :=
  .append
    [.scale (.literal 2) (.scale (.literal 3) (.ramp (.literal 0) (.literal 1) (.literal 1))),
    .constant (.literal 6) (.literal 1), .constant (.literal 6) (.literal 1),
    .sample (.add (.ramp (.literal 6) (.literal 0) (.literal 2)) (.constant (.literal 0) (.literal 1)))
      (.literal 1) .linear]

def longRise : Waveform := .ramp (.literal 0) (.literal 3) (.literal 3)

def shortFall : Waveform := .ramp (.literal 1) (.literal 0) (.literal 1)

def scaledLines : Waveform :=
  .add (.scale (.variable "x") longRise) (.scale (.variable "x") shortFall)

def cutLines : Waveform :=
  .slice scaledLines ⟨some (.literal (.ofScaled 5 1)), some (.literal (.ofScaled 25 1))⟩

/-- The values of the sum, at each time at which something looks at it. -/
theorem scaled_lines_shown :
    ∀ time ∈ [(.ofScaled 5 1 : Decimal), .ofScaled 25 1, 0, 1, 3], ∃ shown,
      Shows ⟨[("x", 2)]⟩ scaledLines time shown := by
  have longLowers : Lowers ⟨[("x", 2)]⟩ longRise (line 3 0 3) := rfl
  have shortLowers : Lowers ⟨[("x", 2)]⟩ shortFall (line 1 1 0) := rfl
  have longShown : ∀ time : Decimal, 0 ≤ time → time ≤ 3 → time.scale ≤ Decimal.quotientPlaces →
      LeafShows ⟨[("x", 2)]⟩ longRise time time := fun time nonneg reached short =>
    leaf_shows_on_line longLowers (by decide) nonneg reached (by ring) short
  have factorOk : (Scalar.variable "x").eval ⟨[("x", 2)]⟩ = .ok 2 := rfl
  simp only [List.mem_cons, List.not_mem_nil, or_false, forall_eq_or_imp, forall_eq]
  refine ⟨?_, ?_, ?_, ?_, ?_⟩
  · exact ⟨2, 1, 1, ⟨2, _, factorOk, longShown (.ofScaled 5 1) (by decide) (by decide) (by decide),
      rfl, by decide⟩, ⟨2, .ofScaled 5 1, factorOk, leaf_shows_on_line shortLowers (by decide)
      (by decide) (by decide) (by decide) (by decide), rfl, by decide⟩, by decide⟩
  · exact ⟨5, 5, 0, ⟨2, _, factorOk, longShown (.ofScaled 25 1) (by decide) (by decide) (by decide),
      rfl, by decide⟩, ⟨2, 0, factorOk, leaf_shows_after shortLowers (by decide), by decide,
      by decide⟩, by decide⟩
  · exact ⟨2, 0, 2, ⟨2, _, factorOk, longShown 0 (by decide) (by decide) (by decide), by decide,
      by decide⟩, ⟨2, 1, factorOk, leaf_shows_on_line shortLowers (by decide) (by decide)
      (by decide) (by decide) (by decide), by decide, by decide⟩, by decide⟩
  · exact ⟨2, 2, 0, ⟨2, _, factorOk, longShown 1 (by decide) (by decide) (by decide), by decide,
      by decide⟩, ⟨2, 0, factorOk, leaf_shows_on_line shortLowers (by decide) (by decide)
      (by decide) (by decide) (by decide), by decide, by decide⟩, by decide⟩
  · exact ⟨6, 6, 0, ⟨2, _, factorOk, longShown 3 (by decide) (by decide) (by decide), by decide,
      by decide⟩, ⟨2, 0, factorOk, leaf_shows_after shortLowers (by decide), by decide,
      by decide⟩, by decide⟩

theorem cut_lines_shown : ∀ node ∈ cutLines.exposed, node.ShownInFull ⟨[("x", 2)]⟩ := by
  have sumShown := scaled_lines_shown
  have sumLowers : Lowers ⟨[("x", 2)]⟩ scaledLines ⟨[⟨0, 2⟩, ⟨1, 2⟩, ⟨3, 6⟩]⟩ := rfl
  have longLowers : Lowers ⟨[("x", 2)]⟩ (.scale (.variable "x") longRise) ⟨[⟨0, 0⟩, ⟨3, 6⟩]⟩ := rfl
  have shortLowers : Lowers ⟨[("x", 2)]⟩ (.scale (.variable "x") shortFall) ⟨[⟨0, 2⟩, ⟨1, 0⟩]⟩ := rfl
  have nodes : cutLines.exposed = [cutLines, scaledLines, .scale (.variable "x") longRise, longRise,
      .scale (.variable "x") shortFall, shortFall] := rfl
  rw [nodes]
  simp only [List.mem_cons, List.not_mem_nil, or_false, forall_eq_or_imp, forall_eq]
  refine ⟨?_, ?_, trivial, trivial, trivial, trivial⟩
  · intro series lower upper lowers bounds
    have same := lowers_unique lowers sumLowers
    subst same
    have known : (lower, upper) = ((.ofScaled 5 1 : Decimal), (.ofScaled 25 1 : Decimal)) :=
      (Except.ok.inj bounds).symm
    rw [Prod.mk.injEq] at known
    rcases known with ⟨rfl, rfl⟩
    exact sumShown
  · intro leftSeries rightSeries leftLowers rightLowers
    have leftSame := lowers_unique leftLowers longLowers
    have rightSame := lowers_unique rightLowers shortLowers
    subst leftSame rightSame
    refine ⟨.inr (by decide), fun time member => sumShown time ?_⟩
    revert time
    decide

theorem canonical_waveform_keeps_series_parts :
    (∃ result kept, afresh (waveform risenThenSampled) = .ok result ∧
      lowerLinear .empty result = .ok kept ∧ kept.eval 2 = 6 ∧ kept.eval 4 = 3) ∧
    lowerLinear ⟨[("x", 2)]⟩ cutLines = .ok ⟨[⟨0, 2⟩, ⟨.ofScaled 5 1, 2⟩, ⟨2, 5⟩]⟩ ∧
      ∃ result kept, afresh (waveform cutLines) = .ok result ∧
        lowerLinear ⟨[("x", 2)]⟩ result = .ok kept ∧
        LinearSeries.same ⟨[⟨0, 2⟩, ⟨.ofScaled 5 1, 2⟩, ⟨2, 5⟩]⟩ kept = true := by
  constructor
  · have lowered : lowerLinear .empty risenThenSampled =
        .ok ⟨[⟨0, 0⟩, ⟨1, 6⟩, ⟨2, 6⟩, ⟨3, 6⟩, ⟨4, 3⟩, ⟨5, 0⟩]⟩ := rfl
    have free : ∀ node ∈ risenThenSampled.nodes, ∀ scalar ∈ node.scalars,
        scalar.quotientFree = true := by decide
    have plain : ∀ node ∈ risenThenSampled.exposed, node.interpolates = false := by decide
    have full : ∀ node ∈ risenThenSampled.exposed, node.ShownInFull .empty := by
      intro node member
      apply shown_of_not_interpolates
      exact plain node member
    rcases canonical_waveform_keeps_series risenThenSampled (by decide)
      (fun node nodeMember scalar member =>
        Scalar.exact_of_quotient_free scalar (free node nodeMember scalar member))
      (by decide) (by decide) full (.inl plain) lowered with ⟨result, kept, made, keptLowered, _, values⟩
    exact ⟨result, kept, made, keptLowered, (values plain 2).trans (by decide),
      (values plain 4).trans (by decide)⟩
  · have lowered : lowerLinear ⟨[("x", 2)]⟩ cutLines =
        .ok ⟨[⟨0, 2⟩, ⟨.ofScaled 5 1, 2⟩, ⟨2, 5⟩]⟩ := rfl
    have free : ∀ node ∈ cutLines.nodes, ∀ scalar ∈ node.scalars,
        scalar.quotientFree = true := by decide
    rcases canonical_waveform_keeps_series cutLines (by decide)
      (fun node nodeMember scalar member =>
        Scalar.exact_of_quotient_free scalar (free node nodeMember scalar member))
      (by decide) (by decide) cut_lines_shown (.inr (by decide)) lowered with
      ⟨result, kept, made, keptLowered, same, _⟩
    exact ⟨lowered, result, kept, made, keptLowered, same⟩

/-- Two lines of different duration, each of them multiplied by a variable. -/
def scaledApart : Waveform :=
  .add (.scale (.variable "x") (.ramp (.literal 0) (.literal 1) (.literal 1)))
    (.scale (.variable "x") (.ramp (.literal 0) (.literal 2) (.literal 2)))

def scaledTogether : Waveform :=
  .scale (.variable "x") (.add (.ramp (.literal 0) (.literal 1) (.literal 1))
    (.ramp (.literal 0) (.literal 2) (.literal 2)))

theorem scaled_apart_form : afresh (waveform scaledApart) = .ok scaledTogether := by
  let short : Waveform := .ramp (.literal 0) (.literal 1) (.literal 1)
  let long : Waveform := .ramp (.literal 0) (.literal 2) (.literal 2)
  let forms : Forms := [(short, short), (long, long),
    (.scale (.variable "x") short, .scale (.variable "x") short),
    (.scale (.variable "x") long, .scale (.variable "x") long),
    (scaledApart, scaledTogether), (scaledTogether, scaledTogether)]
  have consistent : forms.Consistent := Forms.Distinct.consistent (by decide) (by simp [forms])
  have scaled : ∀ line ∈ [short, long],
      Gives forms (waveform (.scale (.variable "x") line)) (.scale (.variable "x") line) := by
    simp only [List.mem_cons, List.not_mem_nil, or_false, forall_eq_or_imp, forall_eq]
    constructor
    · exact scale_form consistent (by simp [forms])
        (ramp_form consistent (by simp [forms, short]) (by decide)) (variable_form "x") .pure
    · exact scale_form consistent (by simp [forms])
        (ramp_form consistent (by simp [forms, long]) (by decide)) (variable_form "x") .pure
  have sum : Gives forms (add (.scale (.variable "x") short) (.scale (.variable "x") long))
      scaledTogether := .pure
  exact (add_form consistent (by simp [forms, short, long, scaledApart]) (scaled short (by simp))
    (scaled long (by simp)) sum).afresh

/-- The variable is zero, so the shorter line has dropped out at zero as long as it is multiplied by
itself. The sum of the lines jumps where it ends, whatever it is multiplied by afterwards. -/
theorem scaled_together_not_lowered :
    (∀ node ∈ scaledApart.nodes,
      (∀ scalar ∈ node.scalars, ∃ value, scalar.eval ⟨[("x", 0)]⟩ = .ok value) ∧
        ∃ length, node.duration ⟨[("x", 0)]⟩ = .ok length ∧ 0 < length) ∧
      lowerLinear ⟨[("x", 0)]⟩ scaledApart = .ok ⟨[⟨0, 0⟩, ⟨1, 0⟩, ⟨2, 0⟩]⟩ ∧
      afresh (waveform scaledApart) = .ok scaledTogether ∧
      ¬∃ series, lowerLinear ⟨[("x", 0)]⟩ scaledTogether = .ok series :=
  ⟨by decide, rfl, scaled_apart_form, by decide⟩

end Analog.Canonical
