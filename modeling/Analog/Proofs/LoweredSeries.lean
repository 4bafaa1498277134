import Analog.Proofs.RestoredNodes
import Analog.Proofs.SteppedWaveforms

/-!
# Lowered series are sound

The operations on series build new breakpoints without checking them. Every series that lowering
makes passes the check all the same: its times start at zero and increase. So no two neighbours
stand at the same time, and interpolating between them never divides by zero. The series lasts as
long as the waveform, and can be written and read back.
-/

set_option autoImplicit false

namespace Analog

open Breakpoints

namespace Breakpoints

/-- There is a line through any two neighbours, and it is the one that is evaluated. -/
def Interpolates (points : List Breakpoint) : Prop :=
  ∀ (index : Nat) (first second : Breakpoint) (time : Decimal),
    points[index]? = some first → points[index + 1]? = some second →
    between first.time first.value second.time second.value time = .ok (onLine first second time)

variable {points : List Breakpoint}

theorem WellFormed.paired (formed : WellFormed points) : Paired (times points) (values points) := by
  constructor
  · rw [times, values, List.length_map, List.length_map]
  · rw [times, List.head?_map]
    exact formed.starts
  · exact formed.times_increasing

theorem WellFormed.interpolates (formed : WellFormed points) : Interpolates points := by
  intro index first second time firstFound secondFound
  obtain ⟨firstInside, rfl⟩ := List.getElem?_eq_some_iff.1 firstFound
  obtain ⟨secondInside, rfl⟩ := List.getElem?_eq_some_iff.1 secondFound
  have ordered := List.pairwise_iff_getElem.1 formed.increasing index (index + 1) firstInside
    secondInside (Nat.lt_succ_self index)
  have apart : points[index + 1].time - points[index].time ≠ 0 := (sub_pos.2 ordered).ne'
  obtain ⟨part, divided⟩ := Decimal.div_of_ne_zero
    ((points[index + 1].value - points[index].value) * (time - points[index].time)) _ apart
  rw [between, onLine, divided, (Decimal.quotient_ok_iff _ _ _).2 divided]
  rfl

end Breakpoints

namespace Series

/-- A series is made of its own times and values, if they pass the check and the end of a constant
series is flat. -/
theorem own_of_formed {series : Series} (formed : WellFormed series.points)
    (flat : series.target = .constant → FlatEnd series.points) :
    ofLists series.target (times series.points) (values series.points) = .ok series := by
  apply (of_lists_ok_iff _ _ _ _).2
  refine ⟨series.points, Breakpoints.of_own_lists formed.paired rfl, ?_⟩
  cases series with
  | linear line => rfl
  | constant steps =>
      have same : flatTail steps.points = steps.points := (flat_end_iff _).1 (flat rfl)
      exact congrArg (fun points => Series.constant ⟨points⟩) same

end Series

namespace Waveform

/-- What can be seen in a part that can be seen, can be seen in the whole. -/
theorem exposed_within (waveform : Waveform) {node : Waveform} (member : node ∈ waveform.exposed) :
    node.exposed ⊆ waveform.exposed := by
  have one : ∀ {inner whole : Waveform}, whole.exposed = whole :: inner.exposed →
      (node ∈ inner.exposed → node.exposed ⊆ inner.exposed) → node ∈ whole.exposed →
      node.exposed ⊆ whole.exposed := by
    intro inner whole seen ih member
    rw [seen, List.mem_cons] at member
    cases member with
    | inl same => exact same ▸ List.Subset.refl _
    | inr within =>
        rw [seen]
        exact List.subset_cons_of_subset _ (ih within)
  induction waveform using Waveform.parts_induction with
  | negative inner ih => exact one rfl ih member
  | add left right leftIh rightIh =>
      rw [exposed, List.mem_cons, List.mem_append] at member
      rcases member with rfl | inLeft | inRight
      · exact List.Subset.refl _
      · exact List.subset_cons_of_subset _ (List.subset_append_of_subset_left _ (leftIh inLeft))
      · exact List.subset_cons_of_subset _ (List.subset_append_of_subset_right _ (rightIh inRight))
  | scale factor inner ih => exact one rfl ih member
  | slice inner interval ih => exact one rfl ih member
  | append parts ih =>
      rw [exposed, List.mem_cons, mem_exposed_all] at member
      rcases member with rfl | ⟨part, partMember, within⟩
      · exact List.Subset.refl _
      · intro other otherMember
        rw [exposed, List.mem_cons, mem_exposed_all]
        exact .inr ⟨part, partMember, ih part partMember within otherMember⟩
  | record name inner side ih => exact one rfl ih member
  | smooth inner radius kernel ih => exact one rfl ih member
  | aligned inner alignment fill ih => exact one rfl ih member
  | _ =>
      rw [exposed, List.mem_singleton] at member
      exact member ▸ List.Subset.refl _

section Lowering

variable [Natives] {bindings : ScalarBindings} {target : Target} {waveform : Waveform}
  {series : Series}

theorem target_of_lower (lowers : waveform.lower bindings target = .ok series) :
    series.target = target := by
  cases target <;> obtain ⟨_, _, rfl⟩ := (Outcome.map_ok_iff _ _ _).1 lowers <;> rfl

theorem flat_of_lower (filled : ∀ node ∈ waveform.exposed, node ≠ .append [])
    (lowers : waveform.lower bindings .constant = .ok series) : FlatEnd series.points := by
  obtain ⟨steps, lowersConstant, rfl⟩ := (Outcome.map_ok_iff _ _ _).1 lowers
  rw [lower_constant_ok_iff] at lowersConstant
  exact (lowersConstant.stepped filled).flat

/-- Every lowered series has the form that was asked for and lasts as long as its waveform. Its
times start at zero and increase, a constant series repeats its last value, and what was lowered on
the way can be interpolated. It is accepted as a series of its own times and values, and what is
written for it is read as this series. -/
theorem lowered_series_sound (bindings : ScalarBindings) (target : Target) (waveform : Waveform)
    (series : Series) (filled : ∀ node ∈ waveform.exposed, node ≠ .append [])
    (lowers : waveform.lower bindings target = .ok series) :
    waveform.duration bindings = .ok series.duration ∧ series.target = target ∧
    Paired (times series.points) (values series.points) ∧
    (target = .constant → FlatEnd series.points) ∧
    (∀ node ∈ waveform.exposed, ∀ part, node.lower bindings target = .ok part →
      Interpolates part.points) ∧
    Series.ofLists target (times series.points) (values series.points) = .ok series ∧
    ((∀ point ∈ series.points, point.time.scale ≤ Decimal.scaleLimit ∧
        point.value.scale ≤ Decimal.scaleLimit) →
      ∃ text, (Node.series series).code = .ok text ∧
        ∀ name expected, Tagged.Expected.admits expected (.node (.series series)) = true →
          Tagged.readAs expected ⟨name, text⟩ = .ok (.node (.series series))) := by
  have form := target_of_lower lowers
  obtain ⟨lasts, formed⟩ := lower_formed filled lowers
  have flat : target = .constant → FlatEnd series.points := by
    intro isConstant
    subst isConstant
    exact flat_of_lower filled lowers
  subst form
  have own := Series.own_of_formed formed flat
  refine ⟨lasts, rfl, formed.paired, flat, ?_, own, ?_⟩
  · intro node member part partLowers
    have nodeFilled : ∀ inner ∈ node.exposed, inner ≠ .append [] :=
      fun inner within => filled inner (exposed_within waveform member within)
    exact (lower_formed nodeFilled partLowers).2.interpolates
  · intro short
    obtain ⟨⟨term, written, denotes⟩, _⟩ := Series.restored own
      (List.forall_mem_map.2 fun point member => (short point member).1)
      (List.forall_mem_map.2 fun point member => (short point member).2)
    refine ⟨term.toText, ?_, fun name expected admitted => ?_⟩
    · rw [Node.code, written]
      rfl
    · rw [Tagged.readAs, read_text_of_denotes denotes, Outcome.ok_bind, if_pos admitted]
      rfl

end Lowering

def slicedSum : Waveform :=
  .add (.slice (.ramp (.literal 0) (.literal 3) (.literal 3))
    ⟨some (.literal (.ofScaled 5 1)), some (.literal (.ofScaled 25 1))⟩)
    (.ramp (.literal 1) (.literal 0) (.literal 1))

theorem lowered_series_sound_sums :
    (∃ series, slicedSum.lower .empty .linear = .ok series ∧
      slicedSum.duration .empty = .ok series.duration ∧ Interpolates series.points ∧
      ∃ text, (Node.series series).code = .ok text ∧
        Tagged.readAs .linear ⟨"given", text⟩ = .ok (.node (.series series))) ∧
    ∃ series, steppedSum.lower .empty .constant = .ok series ∧
      steppedSum.duration .empty = .ok series.duration ∧ FlatEnd series.points := by
  constructor
  · have lowers : slicedSum.lower .empty .linear =
        .ok (.linear ⟨[⟨0, .ofScaled 15 1⟩, ⟨1, .ofScaled 15 1⟩, ⟨2, .ofScaled 25 1⟩]⟩) := rfl
    obtain ⟨lasts, _, _, _, interpolate, _, written⟩ := lowered_series_sound .empty .linear
      slicedSum _ (by simp [slicedSum, exposed]) lowers
    obtain ⟨text, coded, read⟩ := written (by decide)
    exact ⟨_, lowers, lasts, interpolate _ (self_mem_exposed _) _ lowers, text, coded,
      read "given" .linear rfl⟩
  · have lowers : steppedSum.lower .empty .constant =
        .ok (.constant ⟨[⟨0, 2⟩, ⟨1, 4⟩, ⟨.ofScaled 15 1, 2⟩, ⟨2, 1⟩, ⟨3, 1⟩]⟩) := rfl
    obtain ⟨lasts, _, _, flat, _⟩ := lowered_series_sound .empty .constant
      steppedSum _ (by simp [steppedSum, exposed, exposedAll]) lowers
    exact ⟨_, lowers, lasts, flat rfl⟩

end Waveform

end Analog
