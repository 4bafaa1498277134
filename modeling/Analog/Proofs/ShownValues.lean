import Analog.Proofs.LinearLowering
import Analog.Proofs.SeriesGraphs

/-!
# Exact values of waveforms

The exact value of a waveform at a time, together with those of all waveforms it is made of, as long
as no leaf and no scale has more digits there than a quotient. Simplification may evaluate any of
these waveforms in place of the whole.
-/

set_option autoImplicit false

namespace Analog.Waveform

open LinearSeries

variable [Natives]

def LeafShows (bindings : ScalarBindings) (leaf : Waveform) (time shown : Decimal) : Prop :=
  ∃ series, Lowers bindings leaf series ∧ series.graph time = shown.toRat ∧
    shown.scale ≤ Decimal.quotientPlaces

mutual

/-- The exact value of a waveform at a time that is not negative. From its end on it is zero. -/
def Shows (bindings : ScalarBindings) : Waveform → Decimal → Decimal → Prop
  | .constant value duration, time, shown =>
    LeafShows bindings (.constant value duration) time shown
  | .ramp start stop duration, time, shown =>
    LeafShows bindings (.ramp start stop duration) time shown
  | .poly coefficients duration, time, shown =>
    LeafShows bindings (.poly coefficients duration) time shown
  | .native _ _ _ _, _, _ => False
  | .negative inner, time, shown =>
    ∃ innerShown, Shows bindings inner time innerShown ∧ shown = -innerShown
  | .add left right, time, shown =>
    ∃ leftShown rightShown, Shows bindings left time leftShown ∧
      Shows bindings right time rightShown ∧ shown = leftShown + rightShown
  | .scale factor inner, time, shown =>
    ∃ number innerShown, factor.eval bindings = .ok number ∧
      Shows bindings inner time innerShown ∧ shown = number * innerShown ∧
      shown.scale ≤ Decimal.quotientPlaces
  | .slice inner interval, time, shown =>
    ∃ length lower upper, inner.duration bindings = .ok length ∧
      sliceBounds bindings (fun _ => (Waveform.slice inner interval).text) interval length =
        .ok (lower, upper) ∧
      if time ≤ upper - lower then Shows bindings inner (time + lower) shown else shown = 0
  | .append parts, time, shown => ShowsIn bindings parts time shown
  | .record _ inner _, time, shown => Shows bindings inner time shown
  | .sample inner step interpolation, time, shown =>
    LeafShows bindings (.sample inner step interpolation) time shown
  | .smooth _ _ _, _, _ => False
  | .aligned inner _ _, time, shown => Shows bindings inner time shown

def ShowsIn (bindings : ScalarBindings) : List Waveform → Decimal → Decimal → Prop
  | [], _, shown => shown = 0
  | part :: rest, time, shown =>
    ∃ length, part.duration bindings = .ok length ∧
      if time ≤ length then Shows bindings part time shown
      else ShowsIn bindings rest (time - length) shown

end

variable {bindings : ScalarBindings}

theorem shows_in_cons_iff (part : Waveform) (rest : List Waveform) {length : Decimal}
    (lasts : part.duration bindings = .ok length) (time shown : Decimal) :
    ShowsIn bindings (part :: rest) time shown ↔
      if time ≤ length then Shows bindings part time shown
      else ShowsIn bindings rest (time - length) shown := by
  rw [ShowsIn, lasts]
  simp

theorem scale_shows_iff {factor : Scalar} {number : Decimal}
    (evaluated : factor.eval bindings = .ok number) (inner : Waveform) (time shown : Decimal) :
    Shows bindings (.scale factor inner) time shown ↔
      ∃ innerShown, Shows bindings inner time innerShown ∧ shown = number * innerShown ∧
        shown.scale ≤ Decimal.quotientPlaces := by
  rw [Shows, evaluated]
  simp

/-- A value with few digits that lies on the line of a leaf is shown. -/
theorem leaf_shows_on_line {leaf : Waveform} {length first last time shown : Decimal}
    (lowers : Lowers bindings leaf (line length first last)) (positive : 0 < length)
    (nonneg : 0 ≤ time) (reached : time ≤ length) (onLine : (shown - first) * length = (last - first) * time)
    (short : shown.scale ≤ Decimal.quotientPlaces) : LeafShows bindings leaf time shown := by
  refine ⟨_, lowers, ?_, short⟩
  have different : length.toRat ≠ 0 := by
    rw [← Decimal.to_rat_zero, Decimal.to_rat_injective.ne_iff]
    exact positive.ne'
  have points : (line length first last).points = [⟨0, first⟩, ⟨length, last⟩] := by
    unfold line
    rw [if_neg (by simpa using positive.ne')]
  have neighbours : Breakpoints.Neighbours (line length first last).points ⟨0, first⟩
      ⟨length, last⟩ := by
    rw [points]
    exact ⟨0, rfl, rfl⟩
  have same := congrArg Decimal.toRat onLine
  simp only [Decimal.to_rat_mul, Decimal.to_rat_sub] at same
  rw [graph_between (line_spans positive.le).formed neighbours nonneg reached]
  unfold Breakpoints.exactLine
  rw [Decimal.to_rat_zero, sub_zero, sub_zero, div_mul_eq_mul_div, ← same,
    mul_div_cancel_right₀ _ different]
  ring

theorem leaf_shows_after {leaf : Waveform} {series : LinearSeries} {time : Decimal}
    (lowers : Lowers bindings leaf series) (late : series.duration < time) :
    LeafShows bindings leaf time 0 := by
  refine ⟨series, lowers, ?_, Nat.zero_le _⟩
  rw [graph_outside (.inr late), Decimal.to_rat_zero]

theorem Shows.short {waveform : Waveform} {time shown : Decimal}
    (appears : Shows bindings waveform time shown) : shown.scale ≤ Decimal.quotientPlaces := by
  induction waveform using Waveform.parts_induction generalizing time shown with
  | constant value duration | ramp start stop duration | poly coefficients duration
  | sample inner step interpolation =>
      rcases appears with ⟨_, _, _, short⟩
      exact short
  | native name function duration parameters => exact appears.elim
  | smooth inner radius kernel => exact appears.elim
  | negative inner ih =>
      rcases appears with ⟨innerShown, innerShows, rfl⟩
      exact (Decimal.cancel_scale_le _ _).trans (ih innerShows)
  | add left right leftIh rightIh =>
      rcases appears with ⟨leftShown, rightShown, leftShows, rightShows, rfl⟩
      exact (Decimal.cancel_scale_le _ _).trans (max_le (leftIh leftShows) (rightIh rightShows))
  | scale factor inner =>
      rcases appears with ⟨_, _, _, _, _, short⟩
      exact short
  | slice inner interval ih =>
      rcases appears with ⟨_, _, _, _, _, inside⟩
      split_ifs at inside
      · exact ih inside
      · rw [inside]
        exact Nat.zero_le _
  | append parts ih =>
      rw [Shows] at appears
      induction parts generalizing time with
      | nil =>
          rw [show shown = 0 from appears]
          exact Nat.zero_le _
      | cons part rest restIh =>
          rcases appears with ⟨length, _, inside⟩
          split_ifs at inside
          · exact ih part (by simp) inside
          · exact restIh (fun other member => ih other (by simp [member])) inside
  | record name inner side ih => exact ih appears
  | aligned inner alignment fill ih => exact ih appears

end Analog.Waveform
