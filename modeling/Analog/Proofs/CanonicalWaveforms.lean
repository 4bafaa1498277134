import Analog.Canonical.Waveform
import Analog.Proofs.Evaluation
import Analog.Proofs.SignalAlgebra
import Analog.Proofs.WaveformMeaning
import Analog.Waveform.Builtin

/-!
# Canonical waveforms have the same meaning

Each rule of simplification turns waveforms with a meaning into one whose meaning refines
that of the whole. Empty constants may lose a value at the time zero when they are dropped,
so every node is required to last a while; then simplification succeeds, keeps the duration,
and keeps every value.
-/

set_option autoImplicit false

namespace Analog.Canonical

open Signal

section

variable {bindings : ScalarBindings}

/-- Bounds with known values that lie in order within an extent. -/
structure CutsOut (bindings : ScalarBindings) (bounds : Interval) (extent lower upper : Decimal) :
    Prop where
  values : ∃ start stop, Scalar.BoundMeans bindings bounds.start start ∧
    Scalar.BoundMeans bindings bounds.stop stop ∧ lower = start.getD 0 ∧ upper = stop.getD extent
  nonneg : 0 ≤ lower
  ordered : lower ≤ upper
  reached : upper ≤ extent

theorem covers_all_cut {bounds : Interval} {length : Scalar} {extent lower upper : Decimal}
    (cuts : CutsOut bindings bounds extent lower upper)
    (lengthMeans : Scalar.Means bindings length extent) (covers : coversAll bounds length = true) :
    lower = 0 ∧ upper = extent := by
  obtain ⟨start, stop, startMeans, stopMeans, rfl, rfl⟩ := cuts.values
  rw [coversAll, Bool.and_eq_true] at covers
  obtain ⟨startCovers, stopCovers⟩ := covers
  constructor
  · cases given : bounds.start with
    | none =>
        rw [given] at startMeans
        cases startMeans
        rfl
    | some bound =>
        rw [given] at startMeans startCovers
        cases startMeans with
        | some boundMeans => exact boundMeans.zero startCovers
  · cases given : bounds.stop with
    | none =>
        rw [given] at stopMeans
        cases stopMeans
        rfl
    | some bound =>
        rw [given] at stopMeans stopCovers
        cases stopMeans with
        | some boundMeans => exact boundMeans.of_same lengthMeans stopCovers

def Lasting (bindings : ScalarBindings) (given : Waveform) : Prop :=
  ∀ node ∈ given.nodes, ∃ length, node.duration bindings = .ok length ∧ 0 < length

theorem Lasting.child {given child : Waveform} (lasting : Lasting bindings given)
    (member : child ∈ given.children) : Lasting bindings child :=
  ((Waveform.each_node_iff _ given).1 lasting).2 child member

variable [Natives]

/-- A waveform that stands for a meaning, which its own meaning refines. -/
def Stands (bindings : ScalarBindings) (meaning : Signal) (waveform : Waveform) : Prop :=
  ∃ found, Waveform.Means bindings waveform found ∧ Refines meaning found

def SameMeaning (bindings : ScalarBindings) (given result : Waveform) : Prop :=
  ∃ meaning, Waveform.Means bindings given meaning ∧ Stands bindings meaning result

/-- A memory in which every result has the value or the meaning of its node. -/
abbrev Sound (bindings : ScalarBindings) : Memo → Prop :=
  Faithful bindings (SameMeaning bindings)

theorem Stands.mono {first second : Signal} {waveform : Waveform}
    (stands : Stands bindings second waveform) (refines : Refines first second) :
    Stands bindings first waveform := by
  obtain ⟨found, means, found_refines⟩ := stands
  exact ⟨found, means, refines.trans found_refines⟩

theorem stands_itself {meaning : Signal} {waveform : Waveform}
    (means : Waveform.Means bindings waveform meaning) : Stands bindings meaning waveform :=
  ⟨meaning, means, Refines.refl meaning⟩

-- The rules do not look at what is remembered of waveforms.
variable {relation : Waveform → Waveform → Prop}

theorem yields_mono {first second : Signal} {work : Simplifying Waveform}
    (yields : Yields (Faithful bindings relation) work (Stands bindings second))
    (refines : Refines first second) :
    Yields (Faithful bindings relation) work (Stands bindings first) :=
  yields.mono fun _ stands => stands.mono refines

theorem duration_yields {waveform : Waveform} {meaning : Signal}
    (means : Waveform.Means bindings waveform meaning) :
    Yields (Faithful bindings relation) (duration waveform)
      (Scalar.Means bindings · meaning.duration) :=
  scalar_yields _ _ (Waveform.symbolic_duration_means waveform meaning means)

theorem scale_yields {factor : Scalar} {given : Waveform} {number : Decimal} {meaning : Signal}
    (factorMeans : Scalar.Means bindings factor number)
    (means : Waveform.Means bindings given meaning) :
    Yields (Faithful bindings relation) (scale factor given)
      (Stands bindings (meaning.scaled (.ok number))) := by
  fun_induction scale factor given generalizing number meaning with
  | case1 factor given zero =>
      rw [factorMeans.zero zero]
      refine (duration_yields means).bind fun length lengthMeans => .pure ?_
      refine ⟨_, (Waveform.constant_means_iff _ _ _).2
        ⟨0, meaning.duration, Scalar.literal_means 0, lengthMeans, means.bounded.nonneg, rfl⟩, ?_⟩
      exact scaled_zero
  | case2 factor given _ one =>
      rw [factorMeans.one one]
      exact .pure ⟨meaning, means, (scaled_one means.bounded).forth⟩
  | case3 factor _ _ innerFactor inner ih =>
      obtain ⟨innerNumber, innerMeaning, innerFactorMeans, innerMeans, rfl⟩ :=
        (Waveform.scale_means_iff _ _ _).1 means
      exact yields_mono (ih (product_means factorMeans innerFactorMeans) innerMeans)
        (scaled_scaled innerMeans.bounded)
  | case4 factor _ _ value length =>
      obtain ⟨valueNumber, lengthNumber, valueMeans, lengthMeans, nonneg, rfl⟩ :=
        (Waveform.constant_means_iff _ _ _).1 means
      exact .pure ⟨_, (Waveform.constant_means_iff _ _ _).2 ⟨_, lengthNumber,
        product_means factorMeans valueMeans, lengthMeans, nonneg, rfl⟩, scaled_constant⟩
  | case5 =>
      exact .pure (stands_itself ((Waveform.scale_means_iff _ _ _).2
        ⟨number, meaning, factorMeans, means, rfl⟩))

theorem negative_stands {given : Waveform} {meaning : Signal}
    (means : Waveform.Means bindings given meaning) :
    Stands bindings meaning.negate (.negative given) :=
  stands_itself ((Waveform.negative_means_iff _ _).2 ⟨meaning, means, rfl⟩)

theorem negate_yields {given : Waveform} {meaning : Signal}
    (means : Waveform.Means bindings given meaning) :
    Yields (Faithful bindings relation) (negate given) (Stands bindings meaning.negate) := by
  unfold negate
  split
  case h_1 inner =>
      obtain ⟨innerMeaning, innerMeans, rfl⟩ := (Waveform.negative_means_iff _ _).1 means
      exact .pure ⟨innerMeaning, innerMeans, negate_negate innerMeans.bounded⟩
  case h_2 value length =>
      obtain ⟨valueNumber, lengthNumber, valueMeans, lengthMeans, nonneg, rfl⟩ :=
        (Waveform.constant_means_iff _ _ _).1 means
      exact .pure ⟨_, (Waveform.constant_means_iff _ _ _).2 ⟨_, lengthNumber,
        negative_means valueMeans, lengthMeans, nonneg, rfl⟩, negate_constant⟩
  case h_3 factor inner =>
      split
      case h_1 known found =>
          split_ifs with isNegative
          · obtain ⟨number, innerMeaning, factorMeans, innerMeans, rfl⟩ :=
              (Waveform.scale_means_iff _ _ _).1 means
            have same := factorMeans.known found
            subst same
            exact yields_mono (scale_yields (Scalar.literal_means (-known)) innerMeans)
              (negate_scaled innerMeans.bounded)
          · exact .pure (negative_stands means)
      case h_2 => exact .pure (negative_stands means)
  case h_4 => exact .pure (negative_stands means)

def Redundant (bindings : ScalarBindings) (given : Waveform) (other : Signal) : Prop :=
  ∃ value length extent, given = .constant value length ∧ Scalar.Means bindings value 0 ∧
    Scalar.Means bindings length extent ∧ extent ≤ other.duration

theorem Redundant.adds_nothing {given : Waveform} {meaning other : Signal}
    (redundant : Redundant bindings given other) (means : Waveform.Means bindings given meaning) :
    AddsNothing meaning other := by
  rcases redundant with ⟨value, length, extent, rfl, valueMeans, lengthMeans, shorter⟩
  rcases (Waveform.constant_means_iff _ _ _).1 means with
    ⟨number, lengthNumber, valueMeans', lengthMeans', _, rfl⟩
  rw [valueMeans'.unique valueMeans, lengthMeans'.unique lengthMeans]
  exact zero_adds_nothing shorter

theorem is_redundant_yields {given other : Waveform} {meaning otherMeaning : Signal}
    (means : Waveform.Means bindings given meaning)
    (otherMeans : Waveform.Means bindings other otherMeaning) (positive : 0 < meaning.duration) :
    Yields (Faithful bindings relation) (isRedundant given other)
      fun redundant => redundant = true → Redundant bindings given otherMeaning := by
  unfold isRedundant
  split
  case h_1 value length =>
      obtain ⟨number, lengthNumber, valueMeans, lengthMeans, _, rfl⟩ :=
        (Waveform.constant_means_iff _ _ _).1 means
      split_ifs with empty zero
      · rw [duration_within, lengthMeans.zero empty] at positive
        exact absurd positive (lt_irrefl 0)
      · rw [valueMeans.zero zero] at valueMeans
        refine (duration_yields otherMeans).bind fun otherLength otherLengthMeans => ?_
        split_ifs with sameLength
        · exact .pure fun _ => ⟨value, length, lengthNumber, rfl, valueMeans, lengthMeans,
            (lengthMeans.of_same otherLengthMeans sameLength).le⟩
        · split
          case h_1 shorter longer shorterFound longerFound =>
              rw [lengthMeans.known shorterFound, otherLengthMeans.known longerFound]
              exact .pure fun ordered => ⟨value, length, lengthNumber, rfl, valueMeans,
                lengthMeans, of_decide_eq_true ordered⟩
          case h_2 => exact .pure fun impossible => absurd impossible (by simp)
      · exact .pure fun impossible => absurd impossible (by simp)
  case h_2 => exact .pure fun impossible => absurd impossible (by simp)

theorem add_stands {left right : Waveform} {leftMeaning rightMeaning : Signal}
    (leftMeans : Waveform.Means bindings left leftMeaning)
    (rightMeans : Waveform.Means bindings right rightMeaning) :
    Stands bindings (leftMeaning.plus rightMeaning) (.add left right) :=
  stands_itself ((Waveform.add_means_iff _ _ _).2
    ⟨leftMeaning, rightMeaning, leftMeans, rightMeans, rfl⟩)

theorem plain_sum_yields {left right : Waveform} {leftMeaning rightMeaning : Signal}
    (leftMeans : Waveform.Means bindings left leftMeaning)
    (rightMeans : Waveform.Means bindings right rightMeaning) :
    Yields (Faithful bindings relation) (plainSum left right)
      (Stands bindings (leftMeaning.plus rightMeaning)) := by
  unfold plainSum
  split
  case h_1 factor inner =>
      split_ifs with equal
      · obtain ⟨number, innerMeaning, factorMeans, innerMeans, rfl⟩ :=
          (Waveform.scale_means_iff _ _ _).1 rightMeans
        have alike := Waveform.alike_of_same _ _ _ _ innerMeans leftMeans equal
        refine yields_mono (scale_yields (sum_means factorMeans (Scalar.literal_means 1)) leftMeans) ?_
        rw [add_comm]
        exact ((scaled_one leftMeans.bounded).back.plus (Refines.refl _)).trans
          (plus_scaled_signal leftMeans.bounded innerMeans.bounded ⟨alike.back, alike.forth⟩)
      · exact .pure (add_stands leftMeans rightMeans)
  case h_2 => exact .pure (add_stands leftMeans rightMeans)

/-- What is claimed of the sum of two canonical waveforms that last a while. -/
def AddYields (bindings : ScalarBindings) (relation : Waveform → Waveform → Prop)
    (left right : Waveform) : Prop :=
  ∀ leftMeaning rightMeaning, Waveform.Means bindings left leftMeaning →
    Waveform.Means bindings right rightMeaning → 0 < leftMeaning.duration →
    0 < rightMeaning.duration →
    Yields (Faithful bindings relation) (add left right)
      (Stands bindings (leftMeaning.plus rightMeaning))

/-- One step of the sum; the sum of the waveforms inside two scales is left to the recursion. -/
theorem add_yields_step {left right : Waveform}
    (recursion : ∀ factor inner, left = .scale factor inner → ∀ other,
      AddYields bindings relation inner other) : AddYields bindings relation left right := by
  intro leftMeaning rightMeaning leftMeans rightMeans leftPositive rightPositive
  have leftBounded := leftMeans.bounded
  have rightBounded := rightMeans.bounded
  unfold add
  split_ifs with equal
  · have alike := Waveform.alike_of_same _ _ _ _ leftMeans rightMeans equal
    refine yields_mono (scale_yields (Scalar.literal_means 2) leftMeans) ?_
    have doubled := ((scaled_one leftBounded).back.plus (scaled_one rightBounded).back).trans
      (plus_scaled_signal leftBounded rightBounded alike)
    exact doubled
  refine (is_redundant_yields leftMeans rightMeans leftPositive).bind fun leftRedundant adds => ?_
  split_ifs with leftNothing
  · have nothing := (adds leftNothing).adds_nothing leftMeans
    exact .pure ⟨rightMeaning, rightMeans,
      plus_redundant leftBounded rightBounded nothing⟩
  clear adds
  refine (is_redundant_yields rightMeans leftMeans rightPositive).bind fun rightRedundant adds => ?_
  split_ifs with rightNothing
  · have nothing := (adds rightNothing).adds_nothing rightMeans
    exact .pure ⟨leftMeaning, leftMeans, (plus_comm leftBounded rightBounded).trans
      (plus_redundant rightBounded leftBounded nothing)⟩
  clear adds
  split
  case h_1 leftValue leftLength rightValue rightLength =>
      split_ifs with sameLength
      · obtain ⟨first, firstLength, leftValueMeans, leftLengthMeans, nonneg, rfl⟩ :=
          (Waveform.constant_means_iff _ _ _).1 leftMeans
        obtain ⟨second, secondLength, rightValueMeans, rightLengthMeans, _, rfl⟩ :=
          (Waveform.constant_means_iff _ _ _).1 rightMeans
        rw [← leftLengthMeans.of_same rightLengthMeans sameLength]
        exact .pure ⟨_, (Waveform.constant_means_iff _ _ _).2 ⟨_, firstLength,
          sum_means leftValueMeans rightValueMeans, leftLengthMeans, nonneg, rfl⟩, plus_constant⟩
      · exact plain_sum_yields leftMeans rightMeans
  case h_2 leftFactor leftInner rightFactor rightInner =>
      split_ifs with sameFactor sameInner
      · obtain ⟨number, leftInnerMeaning, leftFactorMeans, leftInnerMeans, rfl⟩ :=
          (Waveform.scale_means_iff _ _ _).1 leftMeans
        obtain ⟨_, rightInnerMeaning, rightFactorMeans, rightInnerMeans, rfl⟩ :=
          (Waveform.scale_means_iff _ _ _).1 rightMeans
        rw [← leftFactorMeans.of_same rightFactorMeans sameFactor]
        have inner := recursion leftFactor leftInner rfl rightInner _ _ leftInnerMeans
          rightInnerMeans leftPositive rightPositive
        refine inner.bind fun sum' stands => ?_
        obtain ⟨sumMeaning, sumMeans, refines⟩ := stands
        exact yields_mono (scale_yields leftFactorMeans sumMeans)
          ((plus_scaled_factor leftInnerMeans.bounded rightInnerMeans.bounded).trans
            (refines.scaled (.ok number)))
      · obtain ⟨_, leftInnerMeaning, leftFactorMeans, leftInnerMeans, rfl⟩ :=
          (Waveform.scale_means_iff _ _ _).1 leftMeans
        obtain ⟨_, rightInnerMeaning, rightFactorMeans, rightInnerMeans, rfl⟩ :=
          (Waveform.scale_means_iff _ _ _).1 rightMeans
        have alike := Waveform.alike_of_same _ _ _ _ leftInnerMeans rightInnerMeans sameInner
        exact yields_mono (scale_yields (sum_means leftFactorMeans rightFactorMeans) leftInnerMeans)
          (plus_scaled_signal leftInnerMeans.bounded rightInnerMeans.bounded alike)
      · exact plain_sum_yields leftMeans rightMeans
  case h_3 leftFactor leftInner _ =>
      split_ifs with sameInner
      · obtain ⟨number, leftInnerMeaning, leftFactorMeans, leftInnerMeans, rfl⟩ :=
          (Waveform.scale_means_iff _ _ _).1 leftMeans
        have alike := Waveform.alike_of_same _ _ _ _ leftInnerMeans rightMeans sameInner
        refine yields_mono
          (scale_yields (sum_means leftFactorMeans (Scalar.literal_means 1)) rightMeans) ?_
        have merged := ((Refines.refl (leftInnerMeaning.scaled (.ok number))).plus
          (scaled_one rightBounded).back).trans
          (plus_scaled_signal leftInnerMeans.bounded rightBounded alike)
        exact merged.trans (alike.forth.scaled _)
      · exact plain_sum_yields leftMeans rightMeans
  case h_4 => exact plain_sum_yields leftMeans rightMeans

theorem add_yields (left right : Waveform) : AddYields bindings relation left right := by
  induction left using Waveform.parts_induction generalizing right with
  | scale factor inner ih =>
      apply add_yields_step
      rintro _ _ ⟨⟩ other
      exact ih other
  | _ =>
      apply add_yields_step
      rintro _ _ ⟨⟩

def CutYields (bindings : ScalarBindings) (relation : Waveform → Waveform → Prop)
    (bounds : Interval) (given : Waveform) : Prop :=
  ∀ meaning lower upper, Waveform.Means bindings given meaning →
    CutsOut bindings bounds meaning.duration lower upper →
    Yields (Faithful bindings relation) (cut bounds given)
      (Stands bindings (meaning.cut lower upper))

/-- One step of a slice; slices inside scales and negations are left to the recursion. -/
theorem cut_yields_step {bounds : Interval} {given : Waveform}
    (insideScale : ∀ factor inner, given = .scale factor inner →
      CutYields bindings relation bounds inner)
    (insideNegation : ∀ inner, given = .negative inner →
      CutYields bindings relation bounds inner) :
    CutYields bindings relation bounds given := by
  intro meaning lower upper means cuts
  unfold cut
  refine (duration_yields means).bind fun length lengthMeans => ?_
  split_ifs with covers
  · obtain ⟨rfl, rfl⟩ := covers_all_cut cuts lengthMeans covers
    exact .pure ⟨meaning, means, cut_all means.bounded⟩
  split
  case h_1 factor inner =>
      obtain ⟨number, innerMeaning, factorMeans, innerMeans, rfl⟩ :=
        (Waveform.scale_means_iff _ _ _).1 means
      refine (insideScale factor inner rfl _ _ _ innerMeans cuts).bind fun inner' stands => ?_
      obtain ⟨found, foundMeans, refines⟩ := stands
      exact yields_mono (scale_yields factorMeans foundMeans)
        ((cut_scaled innerMeans.bounded).trans (refines.scaled (.ok number)))
  case h_2 inner =>
      obtain ⟨innerMeaning, innerMeans, rfl⟩ := (Waveform.negative_means_iff _ _).1 means
      refine (insideNegation inner rfl _ _ _ innerMeans cuts).bind fun inner' stands => ?_
      obtain ⟨found, foundMeans, refines⟩ := stands
      exact yields_mono (negate_yields foundMeans)
        ((cut_negate innerMeans.bounded).trans refines.negate)
  case h_3 value extent =>
      obtain ⟨number, extentNumber, valueMeans, extentMeans, _, rfl⟩ :=
        (Waveform.constant_means_iff _ _ _).1 means
      obtain ⟨start, stop, startMeans, stopMeans, startSame, stopSame⟩ := cuts.values
      have ordered := cuts.ordered
      have nonneg := cuts.nonneg
      have reached := cuts.reached
      rw [duration_within] at reached stopSame
      have lengthOk : sliceLength extentNumber start stop = .ok (upper - lower) := by
        rw [Waveform.slice_length_ok_iff, ← startSame, ← stopSame]
        exact ⟨⟨nonneg, ordered, reached⟩, rfl⟩
      obtain ⟨result, sliced, resultMeans⟩ := slice_means
        (fun _ => (Waveform.slice (.constant value extent) bounds).text) extentMeans startMeans
        stopMeans lengthOk
      have lifted : Yields (Faithful bindings relation) (lift _)
          (Scalar.Means bindings · (upper - lower)) :=
        .lift sliced resultMeans
      refine lifted.bind fun newLength newMeans => .pure ?_
      exact ⟨_, (Waveform.constant_means_iff _ _ _).2 ⟨number, upper - lower, valueMeans,
        newMeans, sub_nonneg.2 ordered, rfl⟩, cut_constant nonneg reached⟩
  case h_4 =>
      obtain ⟨start, stop, startMeans, stopMeans, rfl, rfl⟩ := cuts.values
      exact .pure (stands_itself ((Waveform.slice_means_iff _ _ _).2 ⟨start, stop, meaning,
        startMeans, stopMeans, means, ⟨cuts.nonneg, cuts.ordered, cuts.reached⟩, rfl⟩))

theorem cut_yields (bounds : Interval) (given : Waveform) :
    CutYields bindings relation bounds given := by
  induction given using Waveform.parts_induction with
  | scale factor inner ih =>
      apply cut_yields_step
      · rintro _ _ ⟨⟩
        exact ih
      · rintro _ ⟨⟩
  | negative inner ih =>
      apply cut_yields_step
      · rintro _ _ ⟨⟩
      · rintro _ ⟨⟩
        exact ih
  | _ =>
      apply cut_yields_step
      · rintro _ _ ⟨⟩
      · rintro _ ⟨⟩

theorem splice_parts_mean {parts : List Waveform} {meanings : List Signal}
    (mean : List.Forall₂ (Waveform.Means bindings) parts meanings) :
    ∃ spliced, List.Forall₂ (Waveform.Means bindings) (parts.flatMap spliceParts) spliced ∧
      Refines (Signal.concatenate meanings) (Signal.concatenate spliced) := by
  induction mean with
  | nil => exact ⟨[], List.Forall₂.nil, Refines.refl _⟩
  | @cons part meaning parts meanings means restMean ih =>
      obtain ⟨spliced, splicedMean, refines⟩ := ih
      have partSpliced : ∃ inside, List.Forall₂ (Waveform.Means bindings) (spliceParts part) inside ∧
          Refines (Signal.concatenate [meaning]) (Signal.concatenate inside) := by
        unfold spliceParts
        split
        case h_1 inner =>
            obtain ⟨inside, insideMean, rfl⟩ := (Waveform.append_means_iff _ _).1 means
            exact ⟨inside, insideMean, splice_refines (Waveform.Means.all_bounded insideMean)⟩
        case h_2 => exact ⟨[meaning], List.Forall₂.cons means List.Forall₂.nil, Refines.refl _⟩
      obtain ⟨inside, insideMean, insideRefines⟩ := partSpliced
      have insideBounded := Waveform.Means.all_bounded insideMean
      have restBounded := Waveform.Means.all_bounded restMean
      have splicedBounded := Waveform.Means.all_bounded splicedMean
      refine ⟨inside ++ spliced, ?_, ?_⟩
      · rw [List.flatMap_cons]
        exact List.rel_append insideMean splicedMean
      · have first := concatenate_refines_first (mem_single_bounded means.bounded) insideBounded
          restBounded insideRefines
        exact first.trans (concatenate_refines_last insideBounded restBounded splicedBounded refines)

/-- One more part after those joined so far, whatever comes later. Both lists stand in reverse. -/
theorem join_part_means {reversed : List Waveform} {before : List Signal} {part : Waveform}
    {meaning : Signal} (beforeMean : List.Forall₂ (Waveform.Means bindings) reversed before)
    (means : Waveform.Means bindings part meaning) :
    ∃ joined, List.Forall₂ (Waveform.Means bindings) (joinPart reversed part) joined ∧
      ∀ after, (∀ later ∈ after, Bounded later) →
        Refines (Signal.concatenate (before.reverse ++ meaning :: after))
          (Signal.concatenate (joined.reverse ++ after)) := by
  have apart : ∃ joined, List.Forall₂ (Waveform.Means bindings) (part :: reversed) joined ∧
      ∀ after, (∀ later ∈ after, Bounded later) →
        Refines (Signal.concatenate (before.reverse ++ meaning :: after))
          (Signal.concatenate (joined.reverse ++ after)) := by
    refine ⟨meaning :: before, List.Forall₂.cons means beforeMean, fun after _ => ?_⟩
    rw [List.reverse_cons, List.append_assoc]
    exact Refines.refl _
  unfold joinPart
  split
  case h_1 value length rest nextValue nextLength =>
      split_ifs with equal
      · -- The last part so far and the new one are constants of one value.
        cases beforeMean with
        | @cons _ last _ earlier lastMeans earlierMean =>
            obtain ⟨number, lastLength, valueMeans, lengthMeans, nonneg, rfl⟩ :=
              (Waveform.constant_means_iff _ _ _).1 lastMeans
            obtain ⟨_, newLength, nextValueMeans, nextLengthMeans, newNonneg, rfl⟩ :=
              (Waveform.constant_means_iff _ _ _).1 means
            rw [← valueMeans.of_same nextValueMeans equal]
            refine ⟨_, List.Forall₂.cons ((Waveform.constant_means_iff _ _ _).2
              ⟨number, lastLength + newLength, valueMeans, sum_means lengthMeans nextLengthMeans,
                add_nonneg nonneg newNonneg, rfl⟩) earlierMean, fun after afterBounded => ?_⟩
            have earlierBounded : ∀ other ∈ earlier.reverse, Bounded other := fun other member =>
              Waveform.Means.all_bounded earlierMean other (List.mem_reverse.1 member)
            have pairBounded : ∀ other ∈ [within lastLength fun _ => .ok number,
                within newLength fun _ => .ok number], Bounded other := by
              simpa using ⟨within_bounded nonneg, within_bounded newNonneg⟩
            have merged := concatenate_refines_middle earlierBounded pairBounded
              (mem_single_bounded (within_bounded (add_nonneg nonneg newNonneg))) afterBounded
              (merge_refines nonneg newNonneg)
            simpa using merged
      · exact apart
  case h_2 => exact apart

/-- All parts joined from left to right. The invariant is that the signals joined so far and
those to come refine the signals at the start. -/
theorem join_parts_yields (parts reversed : List Waveform) (before after : List Signal)
    (beforeMean : List.Forall₂ (Waveform.Means bindings) reversed before)
    (mean : List.Forall₂ (Waveform.Means bindings) parts after) :
    Yields (Faithful bindings relation) (joinParts reversed parts) fun result =>
      ∃ joined, List.Forall₂ (Waveform.Means bindings) result joined ∧
        Refines (Signal.concatenate (before.reverse ++ after))
          (Signal.concatenate joined.reverse) := by
  induction mean generalizing reversed before with
  | nil =>
      refine .pure ⟨before, beforeMean, ?_⟩
      rw [List.append_nil]
      exact Refines.refl _
  | @cons part meaning parts after means restMean ih =>
      have restBounded := Waveform.Means.all_bounded restMean
      unfold joinParts
      refine (duration_yields means).bind fun length lengthMeans => ?_
      split_ifs with empty
      · have beforeBounded : ∀ other ∈ before.reverse, Bounded other := fun other member =>
          Waveform.Means.all_bounded beforeMean other (List.mem_reverse.1 member)
        have dropped := concatenate_refines_middle beforeBounded (mem_single_bounded means.bounded)
          none_bounded restBounded (empty_refines (lengthMeans.zero empty))
        refine (ih reversed before beforeMean).mono fun result found => ?_
        obtain ⟨joined, joinedMean, refines⟩ := found
        exact ⟨joined, joinedMean, dropped.trans refines⟩
      · obtain ⟨joined, joinedMean, grown⟩ := join_part_means beforeMean means
        refine (ih (joinPart reversed part) joined joinedMean).mono fun result found => ?_
        obtain ⟨final, finalMean, refines⟩ := found
        exact ⟨final, finalMean, (grown after restBounded).trans refines⟩

theorem concatenate_yields {parts : List Waveform} {meanings : List Signal}
    (mean : List.Forall₂ (Waveform.Means bindings) parts meanings)
    (positive : 0 < (Signal.concatenate meanings).duration) :
    Yields (Faithful bindings relation) (concatenate parts)
      (Stands bindings (Signal.concatenate meanings)) := by
  obtain ⟨spliced, splicedMean, splicedRefines⟩ := splice_parts_mean mean
  unfold concatenate
  refine (join_parts_yields _ [] [] spliced List.Forall₂.nil splicedMean).bind fun reversed found => ?_
  obtain ⟨joined, joinedMean, joinedRefines⟩ := found
  have refines := splicedRefines.trans joinedRefines
  split
  case h_1 =>
      -- Without parts there would be no duration.
      cases joinedMean
      have lasts := refines.lasts
      rw [← lasts] at positive
      exact absurd positive (lt_irrefl 0)
  case h_2 part =>
      cases joinedMean with
      | @cons _ meaning _ rest means restMean =>
          cases restMean
          have lasts := refines.lasts
          have partPositive : 0 < meaning.duration := by
            rw [← lasts] at positive
            simpa [Signal.concatenate] using positive
          exact .pure ⟨meaning, means,
            refines.trans (concatenate_single_refines means.bounded partPositive)⟩
  case h_3 =>
      exact .pure ⟨_, (Waveform.append_means_iff _ _).2
        ⟨joined.reverse, List.rel_reverse joinedMean, rfl⟩, refines⟩

theorem ramp_stands {start stop length : Scalar} {first last lengthNumber : Decimal}
    (startMeans : Scalar.Means bindings start first) (stopMeans : Scalar.Means bindings stop last)
    (lengthMeans : Scalar.Means bindings length lengthNumber) (nonneg : 0 ≤ lengthNumber) :
    Stands bindings (line (.ok first) (.ok last) lengthNumber) (ramp start stop length) := by
  unfold ramp
  split_ifs with equal
  · rw [← startMeans.of_same stopMeans equal, line_level]
    exact stands_itself ((Waveform.constant_means_iff _ _ _).2
      ⟨first, lengthNumber, startMeans, lengthMeans, nonneg, rfl⟩)
  · exact stands_itself ((Waveform.ramp_means_iff _ _ _ _).2
      ⟨first, last, lengthNumber, startMeans, stopMeans, lengthMeans, nonneg, rfl⟩)

theorem poly_stands {coefficients : List Scalar} {length : Scalar} {values : List Decimal}
    {lengthNumber : Decimal} (mean : List.Forall₂ (Scalar.Means bindings) coefficients values)
    (lengthMeans : Scalar.Means bindings length lengthNumber) (nonneg : 0 ≤ lengthNumber) :
    Stands bindings (within lengthNumber fun time => .ok (polynomialValue values time))
      (poly coefficients length) := by
  unfold poly
  split
  case h_1 =>
      cases mean
      exact stands_itself ((Waveform.constant_means_iff _ _ _).2
        ⟨0, lengthNumber, Scalar.literal_means 0, lengthMeans, nonneg, rfl⟩)
  case h_2 value =>
      cases mean with
      | @cons _ number _ _ valueMeans restMean =>
          cases restMean
          have level : ∀ time, polynomialValue [number] time = number := fun time => by
            simp [polynomialValue]
          simp only [level]
          exact stands_itself ((Waveform.constant_means_iff _ _ _).2
            ⟨number, lengthNumber, valueMeans, lengthMeans, nonneg, rfl⟩)
  case h_3 =>
      exact stands_itself ((Waveform.poly_means_iff _ _ _).2
        ⟨values, lengthNumber, mean, lengthMeans, nonneg, rfl⟩)

omit [Natives] in
theorem fill_yields {given : FillValue}
    (each : ∀ scalar ∈ given.scalars, ∃ value, Scalar.Means bindings scalar value) :
    Yields (Faithful bindings relation) (fill given)
      fun result => ∀ scalar ∈ result.scalars, ∃ value, Scalar.Means bindings scalar value := by
  cases given with
  | explicit value =>
      obtain ⟨number, means⟩ := each value (by simp [FillValue.scalars])
      refine (scalar_yields value number means).bind fun value' means' => .pure ?_
      simpa [FillValue.scalars] using ⟨number, means'⟩
  | boundary side => exact .pure each

theorem SameMeaning.of_same {given other result : Waveform} (same : SameMeaning bindings given result)
    {meaning : Signal} (otherMeans : Waveform.Means bindings other meaning)
    (equal : given.same other = true) : SameMeaning bindings other result := by
  obtain ⟨givenMeaning, givenMeans, stands⟩ := same
  have alike := Waveform.alike_of_same _ _ _ _ givenMeans otherMeans equal
  exact ⟨meaning, otherMeans, stands.mono alike.back⟩

theorem keep_waveform_sound {given result : Waveform} {meaning : Signal} {memo : Memo}
    (means : Waveform.Means bindings given meaning) (stands : Stands bindings meaning result)
    (sound : Sound bindings memo) : Sound bindings (keepWaveform given result memo) := by
  have fresh : SameMeaning bindings given result := ⟨meaning, means, stands⟩
  have itself : SameMeaning bindings result result := by
    obtain ⟨found, resultMeans, _⟩ := stands
    exact ⟨found, resultMeans, stands_itself resultMeans⟩
  refine ⟨sound.scalars, ?_⟩
  refine (sound.waveforms.insert fresh ?_).insert itself ?_
  · rintro other old ⟨_, otherMeans, _⟩ equal
    exact fresh.of_same otherMeans equal
  · rintro other old ⟨_, otherMeans, _⟩ equal
    exact itself.of_same otherMeans equal

theorem remember_waveform_yields {α : Type} {given : Waveform} {meaning : Signal}
    {parts : Simplifying α} {simplify : α → Simplifying Waveform} {good : α → Prop}
    (means : Waveform.Means bindings given meaning) (partsYield : Yields (Sound bindings) parts good)
    (simplifyYields : ∀ canonicalParts, good canonicalParts →
      Yields (Sound bindings) (simplify canonicalParts) (Stands bindings meaning)) :
    Yields (Sound bindings) (rememberWaveform given parts simplify) (Stands bindings meaning) := by
  apply Yields.remembering _ _ partsYield simplifyYields
  · intro memo sound known found
    obtain ⟨other, equal, otherMeaning, otherMeans, stands⟩ := sound.waveforms.find found
    exact stands.mono (Waveform.alike_of_same _ _ _ _ means otherMeans equal).forth
  · intro result stands memo sound
    exact keep_waveform_sound means stands sound

theorem waveforms_yield {parts : List Waveform} {meanings : List Signal}
    (each : ∀ part ∈ parts, ∀ meaning, Waveform.Means bindings part meaning →
      Yields (Sound bindings) (waveform part) (Stands bindings meaning))
    (mean : List.Forall₂ (Waveform.Means bindings) parts meanings) :
    Yields (Sound bindings) (waveforms parts) fun results =>
      ∃ found, List.Forall₂ (Waveform.Means bindings) results found ∧
        List.Forall₂ Refines meanings found := by
  induction mean with
  | nil =>
      rw [waveforms]
      exact .pure ⟨[], List.Forall₂.nil, List.Forall₂.nil⟩
  | cons means _ ih =>
      rw [waveforms]
      refine (each _ (by simp) _ means).bind fun part' stands => ?_
      refine (ih fun other member => each other (by simp [member])).bind fun rest' restStand => ?_
      obtain ⟨found, foundMeans, refines⟩ := stands
      obtain ⟨others, othersMean, othersRefine⟩ := restStand
      exact .pure ⟨found :: others, List.Forall₂.cons foundMeans othersMean,
        List.Forall₂.cons refines othersRefine⟩

theorem Lasting.positive {given : Waveform} {meaning : Signal} (lasting : Lasting bindings given)
    (means : Waveform.Means bindings given meaning) : 0 < meaning.duration := by
  obtain ⟨length, lasts, positive⟩ := ((Waveform.each_node_iff _ given).1 lasting).1
  rw [Waveform.duration_of_signal means.means, Except.ok.injEq] at lasts
  rw [lasts]
  exact positive

theorem waveform_yields (given : Waveform) (meaning : Signal)
    (means : Waveform.Means bindings given meaning) (lasting : Lasting bindings given) :
    Yields (Sound bindings) (waveform given) (Stands bindings meaning) := by
  induction given using Waveform.parts_induction generalizing meaning with
  | constant value length =>
      rw [waveform]
      obtain ⟨_, lengthNumber, valueMeans, lengthMeans, nonneg, rfl⟩ :=
        (Waveform.constant_means_iff _ _ _).1 means
      refine remember_waveform_yields means (.pure trivial) fun _ (_ : True) => ?_
      refine (scalar_yields value _ valueMeans).bind fun value' valueMeans' => ?_
      refine (scalar_yields length _ lengthMeans).bind fun length' lengthMeans' => .pure ?_
      exact stands_itself ((Waveform.constant_means_iff _ _ _).2
        ⟨_, lengthNumber, valueMeans', lengthMeans', nonneg, rfl⟩)
  | ramp start stop length =>
      rw [waveform]
      obtain ⟨_, _, _, startMeans, stopMeans, lengthMeans, nonneg, rfl⟩ :=
        (Waveform.ramp_means_iff _ _ _ _).1 means
      refine remember_waveform_yields means (.pure trivial) fun _ (_ : True) => ?_
      refine (scalar_yields start _ startMeans).bind fun start' startMeans' => ?_
      refine (scalar_yields stop _ stopMeans).bind fun stop' stopMeans' => ?_
      refine (scalar_yields length _ lengthMeans).bind fun length' lengthMeans' => .pure ?_
      exact ramp_stands startMeans' stopMeans' lengthMeans' nonneg
  | poly coefficients length =>
      rw [waveform]
      obtain ⟨_, _, mean, lengthMeans, nonneg, rfl⟩ := (Waveform.poly_means_iff _ _ _).1 means
      refine remember_waveform_yields means (.pure trivial) fun _ (_ : True) => ?_
      refine (scalars_yield (fun operand _ => scalar_yields operand) mean).bind
        fun coefficients' mean' => ?_
      refine (scalar_yields length _ lengthMeans).bind fun length' lengthMeans' => .pure ?_
      exact poly_stands mean' lengthMeans' nonneg
  | native name function length parameters =>
      rw [waveform]
      obtain ⟨values, lengthNumber, mean, lengthMeans, nonneg, rfl⟩ :=
        (Waveform.native_means_iff _ _ _ _ _).1 means
      refine remember_waveform_yields means (.pure trivial) fun _ (_ : True) => ?_
      refine (scalar_yields length _ lengthMeans).bind fun length' lengthMeans' => ?_
      refine (scalars_yield (fun operand _ => scalar_yields operand) mean).bind
        fun parameters' mean' => .pure ?_
      exact stands_itself ((Waveform.native_means_iff _ _ _ _ _).2
        ⟨values, lengthNumber, mean', lengthMeans', nonneg, rfl⟩)
  | negative inner ih =>
      rw [waveform]
      obtain ⟨innerMeaning, innerMeans, rfl⟩ := (Waveform.negative_means_iff _ _).1 means
      refine remember_waveform_yields means
        (ih _ innerMeans (lasting.child (by simp [Waveform.children]))) fun inner' stands => ?_
      obtain ⟨found, foundMeans, refines⟩ := stands
      exact yields_mono (negate_yields foundMeans) refines.negate
  | add left right leftIh rightIh =>
      rw [waveform]
      obtain ⟨leftMeaning, rightMeaning, leftMeans, rightMeans, rfl⟩ :=
        (Waveform.add_means_iff _ _ _).1 means
      have leftLasting : Lasting bindings left := lasting.child (by simp [Waveform.children])
      have rightLasting : Lasting bindings right := lasting.child (by simp [Waveform.children])
      have leftPositive := leftLasting.positive leftMeans
      have rightPositive := rightLasting.positive rightMeans
      refine remember_waveform_yields means
        ((leftIh _ leftMeans leftLasting).pair (rightIh _ rightMeans rightLasting)) ?_
      rintro ⟨left', right'⟩ ⟨leftStands, rightStands⟩
      obtain ⟨leftFound, leftMeans', leftRefines⟩ := leftStands
      obtain ⟨rightFound, rightMeans', rightRefines⟩ := rightStands
      rw [← leftRefines.lasts] at leftPositive
      rw [← rightRefines.lasts] at rightPositive
      exact yields_mono (add_yields _ _ _ _ leftMeans' rightMeans' leftPositive rightPositive)
        (leftRefines.plus rightRefines)
  | scale factor inner ih =>
      rw [waveform]
      obtain ⟨number, innerMeaning, factorMeans, innerMeans, rfl⟩ :=
        (Waveform.scale_means_iff _ _ _).1 means
      refine remember_waveform_yields means
        (ih _ innerMeans (lasting.child (by simp [Waveform.children]))) fun inner' stands => ?_
      obtain ⟨found, foundMeans, refines⟩ := stands
      refine (scalar_yields factor _ factorMeans).bind fun factor' factorMeans' => ?_
      exact yields_mono (scale_yields factorMeans' foundMeans) (refines.scaled (.ok number))
  | slice inner bounds ih =>
      rw [waveform]
      obtain ⟨start, stop, innerMeaning, startMeans, stopMeans, innerMeans, ordered, rfl⟩ :=
        (Waveform.slice_means_iff _ _ _).1 means
      refine remember_waveform_yields means
        (ih _ innerMeans (lasting.child (by simp [Waveform.children]))) fun inner' stands => ?_
      obtain ⟨found, foundMeans, refines⟩ := stands
      refine (interval_yields startMeans stopMeans).bind fun bounds' boundsMean => ?_
      have cuts : CutsOut bindings bounds' found.duration (start.getD 0)
          (stop.getD innerMeaning.duration) := by
        rw [refines.lasts]
        exact ⟨⟨start, stop, boundsMean.1, boundsMean.2, rfl, rfl⟩, ordered.1, ordered.2.1,
          ordered.2.2⟩
      exact yields_mono (cut_yields bounds' inner' _ _ _ foundMeans cuts) (refines.cut _ _)
  | append parts ih =>
      rw [waveform]
      obtain ⟨meanings, mean, rfl⟩ := (Waveform.append_means_iff _ _).1 means
      have positive := lasting.positive means
      refine remember_waveform_yields means (waveforms_yield (fun part member partMeaning
        partMeans => ih part member partMeaning partMeans (lasting.child member)) mean)
        fun parts' stand => ?_
      obtain ⟨found, foundMean, refine'⟩ := stand
      have refines := concatenate_refines refine' (Waveform.Means.all_bounded mean)
        (Waveform.Means.all_bounded foundMean)
      rw [← refines.lasts] at positive
      exact yields_mono (concatenate_yields foundMean positive) refines
  | record name inner side ih =>
      rw [waveform]
      refine remember_waveform_yields means (ih _ ((Waveform.record_means_iff _ _ _ _).1 means)
        (lasting.child (by simp [Waveform.children]))) fun inner' stands => .pure ?_
      obtain ⟨found, foundMeans, refines⟩ := stands
      exact ⟨found, (Waveform.record_means_iff _ _ _ _).2 foundMeans, refines⟩
  | sample inner step interpolation ih =>
      rw [waveform]
      obtain ⟨number, innerMeaning, stepMeans, innerMeans, rfl⟩ :=
        (Waveform.sample_means_iff _ _ _ _).1 means
      refine remember_waveform_yields means
        (ih _ innerMeans (lasting.child (by simp [Waveform.children]))) fun inner' stands => ?_
      obtain ⟨found, foundMeans, refines⟩ := stands
      refine (scalar_yields step _ stepMeans).bind fun step' stepMeans' => .pure ?_
      exact ⟨_, (Waveform.sample_means_iff _ _ _ _).2 ⟨number, found, stepMeans', foundMeans, rfl⟩,
        refines.sampled (.ok number) interpolation⟩
  | smooth inner radius kernel ih =>
      rw [waveform]
      obtain ⟨number, innerMeaning, radiusMeans, innerMeans, rfl⟩ :=
        (Waveform.smooth_means_iff _ _ _ _).1 means
      refine remember_waveform_yields means
        (ih _ innerMeans (lasting.child (by simp [Waveform.children]))) fun inner' stands => ?_
      obtain ⟨found, foundMeans, refines⟩ := stands
      refine (scalar_yields radius _ radiusMeans).bind fun radius' radiusMeans' => .pure ?_
      exact ⟨_, (Waveform.smooth_means_iff _ _ _ _).2
        ⟨number, found, radiusMeans', foundMeans, rfl⟩, refines.smoothed kernel (.ok number)⟩
  | aligned inner alignment value ih =>
      rw [waveform]
      obtain ⟨each, innerMeans⟩ := (Waveform.aligned_means_iff _ _ _ _).1 means
      refine remember_waveform_yields means
        (ih _ innerMeans (lasting.child (by simp [Waveform.children]))) fun inner' stands => ?_
      obtain ⟨found, foundMeans, refines⟩ := stands
      refine (fill_yields each).bind fun value' each' => .pure ?_
      exact ⟨found, (Waveform.aligned_means_iff _ _ _ _).2 ⟨each', foundMeans⟩, refines⟩

/-- Simplifying a waveform without quotients succeeds, and keeps its duration and every value it
has. The operands of each minimum and maximum are all different, as its constructor leaves
them; every scalar has a value, and every node lasts for some time. -/
theorem canonical_waveform_keeps_meaning (given : Waveform)
    (tidied : ∀ node ∈ given.nodes, ∀ scalar ∈ node.scalars, scalar.tidy = true)
    (free : ∀ node ∈ given.nodes, ∀ scalar ∈ node.scalars, scalar.quotientFree = true)
    (evaluates : ∀ node ∈ given.nodes, ∀ scalar ∈ node.scalars,
      ∃ value, scalar.eval bindings = .ok value)
    (lasting : ∀ node ∈ given.nodes, ∃ length, node.duration bindings = .ok length ∧ 0 < length) :
    ∃ result, afresh (waveform given) = .ok result ∧
      result.duration bindings = given.duration bindings ∧
      (∀ time value, given.valueAt bindings time = .ok value →
        result.valueAt bindings time = .ok value) ∧
      ∃ before after, Evaluator.of bindings given = .ok before ∧
        Evaluator.of bindings result = .ok after ∧
        ∀ time value, before.valueAt time = .ok value → after.valueAt time = .ok value := by
  have proper : Waveform.Proper bindings given := by
    intro node nodeMember scalar member
    obtain ⟨value, evaluated⟩ := evaluates node nodeMember scalar member
    exact ⟨value, tidied node nodeMember scalar member,
      Scalar.exact_of_quotient_free scalar (free node nodeMember scalar member), evaluated⟩
  obtain ⟨length, lasts, _⟩ := ((Waveform.each_node_iff _ given).1 lasting).1
  obtain ⟨meaning, means, rfl⟩ := Waveform.signal_of_duration lasts
  obtain ⟨result, made, found, foundMeans, refines⟩ :=
    (waveform_yields given meaning ⟨proper, means⟩ lasting).afresh remembers_nothing
  obtain ⟨before, beforeMade, _, beforeFinds⟩ := Evaluator.of_signal means
  obtain ⟨after, afterMade, _, afterFinds⟩ := Evaluator.of_signal foundMeans.means
  refine ⟨result, made, ?_, ?_, before, after, beforeMade, afterMade, ?_⟩
  · rw [lasts, Waveform.duration_of_signal foundMeans.means, refines.lasts]
  · intro time value
    unfold Waveform.valueAt
    rw [means, foundMeans.means]
    exact refines.values time value
  · intro time value valued
    exact (afterFinds time value).2 (refines.values time value ((beforeFinds time value).1 valued))

end

/-- A waveform added to a multiple of itself, and then the middle of a sampled polynomial. -/
def doubledThenSampled : Waveform :=
  .append
    [.add (.scale (.minimum [.literal 2, .literal 3]) (.ramp (.literal 0) (.literal 4) (.literal 2)))
      (.ramp (.literal 0) (.literal 4) (.literal 2)),
    .slice (.sample (.poly [.literal 1, .literal 1] (.literal 4)) (.literal 1) .linear)
      ⟨some (.literal 1), some (.literal 3)⟩]

theorem canonical_waveform_keeps_meaning_doubled :
    ∃ result, afresh (waveform doubledThenSampled) = .ok result ∧
      result.duration .empty = .ok 4 ∧ result.valueAt .empty 1 = .ok 6 ∧
      result.valueAt .empty 3 = .ok 3 := by
  obtain ⟨result, made, lasts, values, _⟩ :=
    @canonical_waveform_keeps_meaning .empty _ doubledThenSampled (by decide) (by decide)
      (by decide) (by decide)
  exact ⟨result, made, lasts, values 1 6 rfl, values 3 3 rfl⟩

end Analog.Canonical
