import Analog.Proofs.AlikeScalars
import Analog.Waveform.Duration

/-!
# Equality of waveforms

Waveforms are equal if they are of one shape, and their scalars and the waveforms inside
them are equal one by one. On waveforms with tidy scalars this is an equivalence, and equal
waveforms have equal durations and as many nodes.
-/

set_option autoImplicit false

namespace Analog

theorem Interval.same_refl (interval : Interval) : interval.same interval = true := by
  obtain ⟨start, stop⟩ := interval
  cases start <;> cases stop <;> simp [Interval.same, Scalar.sameBound, Scalar.same_refl]

theorem FillValue.same_refl (fill : FillValue) : fill.same fill = true := by
  cases fill <;> simp [FillValue.same, Scalar.same_refl]

/-- The end at which a waveform is asked for the value to extend it with. -/
def FillValue.boundary? : FillValue → Option Side
  | explicit _ => none
  | boundary side => some side

theorem FillValue.same_iff (first second : FillValue) :
    first.same second = true ↔ first.boundary? = second.boundary? ∧
      List.Forall₂ (fun left right => left.same right = true) first.scalars second.scalars := by
  cases first <;> cases second <;> simp [same, boundary?, scalars]

theorem Interval.same_iff (first second : Interval) :
    first.same second = true ↔
      (first.start.isSome = second.start.isSome ∧ first.stop.isSome = second.stop.isSome) ∧
      List.Forall₂ (fun left right => left.same right = true) first.bounds second.bounds := by
  obtain ⟨start, stop⟩ := first
  obtain ⟨otherStart, otherStop⟩ := second
  cases start <;> cases otherStart <;> cases stop <;> cases otherStop <;>
    simp [same, bounds, Scalar.sameBound]

def Interval.Alike (first second : Interval) : Prop :=
  Scalar.BoundAlike first.start second.start ∧ Scalar.BoundAlike first.stop second.stop

theorem Interval.alike_iff (first second : Interval) :
    first.Alike second ↔
      (first.start.isSome = second.start.isSome ∧ first.stop.isSome = second.stop.isSome) ∧
      List.Forall₂ Scalar.Alike first.bounds second.bounds := by
  obtain ⟨start, stop⟩ := first
  obtain ⟨otherStart, otherStop⟩ := second
  cases start <;> cases otherStart <;> cases stop <;> cases otherStop <;>
    simp [Interval.Alike, bounds, Scalar.BoundAlike]

namespace Waveform

theorem same_scalars_refl (operands : List Scalar) : sameScalars operands operands = true := by
  induction operands with
  | nil => rfl
  | cons operand rest ih => rw [sameScalars, Scalar.same_refl, ih, Bool.and_self]

theorem same_refl (waveform : Waveform) : waveform.same waveform = true := by
  induction waveform using Waveform.parts_induction with
  | append parts ih =>
      rw [Waveform.same]
      induction parts with
      | nil => rfl
      | cons part rest restIh =>
          rw [sameAll, ih part (by simp), restIh fun other member => ih other (by simp [member]),
            Bool.and_self]
  | _ =>
      simp_all [Waveform.same, Scalar.same_refl, same_scalars_refl, Interval.same_refl,
        FillValue.same_refl]

/-- What a node is, apart from its scalars and the waveforms inside it. -/
inductive Shape where
  | constant
  | ramp
  | poly
  | native (name function : String)
  | negative
  | add
  | scale
  | slice (start stop : Bool)
  | append
  | record (name : String) (side : Side)
  | sample (interpolation : Interpolation)
  | smooth (kernel : Kernel)
  | aligned (alignment : Side) (boundary : Option Side)

def shape : Waveform → Shape
  | .constant _ _ => .constant
  | .ramp _ _ _ => .ramp
  | .poly _ _ => .poly
  | .native name function _ _ => .native name function
  | .negative _ => .negative
  | .add _ _ => .add
  | .scale _ _ => .scale
  | .slice _ interval => .slice interval.start.isSome interval.stop.isSome
  | .append _ => .append
  | .record name _ side => .record name side
  | .sample _ _ interpolation => .sample interpolation
  | .smooth _ _ kernel => .smooth kernel
  | .aligned _ alignment fill => .aligned alignment fill.boundary?

theorem same_scalars_iff (lefts rights : List Scalar) :
    sameScalars lefts rights = true ↔
      List.Forall₂ (fun left right => left.same right = true) lefts rights := by
  induction lefts generalizing rights with
  | nil => cases rights <;> simp [sameScalars]
  | cons left rest ih => cases rights <;> simp [sameScalars, ih]

theorem same_all_iff (lefts rights : List Waveform) :
    sameAll lefts rights = true ↔
      List.Forall₂ (fun left right => left.same right = true) lefts rights := by
  induction lefts generalizing rights with
  | nil => cases rights <;> simp [sameAll]
  | cons left rest ih => cases rights <;> simp [sameAll, ih]

theorem related_snoc_iff {α β : Type} {relation : α → β → Prop} (items : List α) (last : α)
    (results : List β) (final : β) :
    List.Forall₂ relation (items ++ [last]) (results ++ [final]) ↔
      List.Forall₂ relation items results ∧ relation last final := by
  rw [← List.forall₂_reverse_iff, List.reverse_concat', List.reverse_concat', List.forall₂_cons,
    List.forall₂_reverse_iff, and_comm]

theorem same_iff (first second : Waveform) :
    first.same second = true ↔ first.shape = second.shape ∧
      List.Forall₂ (fun left right => left.same right = true) first.scalars second.scalars ∧
      List.Forall₂ (fun left right => left.same right = true) first.children second.children := by
  cases first <;> cases second <;>
    first
    | exact iff_of_false (fun equal => Bool.false_ne_true equal) fun both => Shape.noConfusion both.1
    | simp [same, shape, scalars, children, same_scalars_iff, same_all_iff, FillValue.same_iff,
        Interval.same_iff, related_snoc_iff, and_assoc]

/-- Equal waveforms, the scalars of both as their constructors leave them. -/
structure Akin (first second : Waveform) : Prop where
  firstTidy : first.Each (·.tidy = true)
  secondTidy : second.Each (·.tidy = true)
  equal : first.same second = true

theorem akin_iff (first second : Waveform) :
    Akin first second ↔ first.shape = second.shape ∧
      List.Forall₂ Scalar.Alike first.scalars second.scalars ∧
      List.Forall₂ Akin first.children second.children := by
  constructor
  · rintro ⟨firstTidy, secondTidy, equal⟩
    obtain ⟨shapes, scalarsSame, childrenSame⟩ := (same_iff _ _).1 equal
    obtain ⟨firstScalars, firstChildren⟩ := (each_iff _).1 firstTidy
    obtain ⟨secondScalars, secondChildren⟩ := (each_iff _).1 secondTidy
    refine ⟨shapes, Outcome.related_of_members scalarsSame fun left member right found same => ?_,
      Outcome.related_of_members childrenSame fun left member right found same => ?_⟩
    · exact ⟨firstScalars left member, secondScalars right found, same⟩
    · exact ⟨firstChildren left member, secondChildren right found, same⟩
  · rintro ⟨shapes, scalarsAlike, childrenAkin⟩
    refine ⟨(each_iff _).2 ⟨fun left member => ?_, fun left member => ?_⟩,
      (each_iff _).2 ⟨fun right member => ?_, fun right member => ?_⟩,
      (same_iff _ _).2 ⟨shapes, scalarsAlike.imp fun _ _ alike => alike.equal,
        childrenAkin.imp fun _ _ alike => alike.equal⟩⟩
    · obtain ⟨_, _, alike⟩ := Outcome.target_of_mem scalarsAlike member
      exact alike.firstTidy
    · obtain ⟨_, _, alike⟩ := Outcome.target_of_mem childrenAkin member
      exact alike.firstTidy
    · obtain ⟨_, _, alike⟩ := Outcome.source_of_mem scalarsAlike member
      exact alike.secondTidy
    · obtain ⟨_, _, alike⟩ := Outcome.source_of_mem childrenAkin member
      exact alike.secondTidy

theorem Akin.refl {waveform : Waveform} (tidied : waveform.Each (·.tidy = true)) :
    Akin waveform waveform :=
  ⟨tidied, tidied, same_refl waveform⟩

theorem Akin.symm {first second : Waveform} (akin : Akin first second) : Akin second first := by
  induction first using Waveform.children_induction generalizing second with
  | step first ih =>
      obtain ⟨shapes, scalarsAlike, childrenAkin⟩ := (akin_iff _ _).1 akin
      refine (akin_iff _ _).2 ⟨shapes.symm, (scalarsAlike.imp fun _ _ => Scalar.Alike.symm).flip,
        (Outcome.related_of_mem childrenAkin fun child member other => ih child member).flip⟩

theorem Akin.trans {first second third : Waveform} (akin : Akin first second)
    (next : Akin second third) : Akin first third := by
  induction first using Waveform.children_induction generalizing second third with
  | step first ih =>
      obtain ⟨shapes, scalarsAlike, childrenAkin⟩ := (akin_iff _ _).1 akin
      obtain ⟨nextShapes, nextScalars, nextChildren⟩ := (akin_iff _ _).1 next
      have children := Outcome.related_of_mem childrenAkin fun child member other same =>
        And.intro member same
      refine (akin_iff _ _).2 ⟨shapes.trans nextShapes, ?_, ?_⟩
      · exact Outcome.related_of_common scalarsAlike.flip nextScalars
          fun _ _ _ same nextSame => Scalar.Alike.trans same nextSame
      · exact Outcome.related_of_common children.flip nextChildren
          fun _ _ _ same nextSame => ih _ same.1 same.2 nextSame

/-- Equality does not tell akin waveforms apart, on either side. -/
theorem Akin.same_congr {first second left right : Waveform} (akin : Akin first second)
    (others : Akin left right) : first.same left = second.same right := by
  rw [Bool.eq_iff_iff]
  constructor
  · intro equal
    exact (akin.symm.trans (Akin.trans ⟨akin.firstTidy, others.firstTidy, equal⟩ others)).equal
  · intro equal
    exact (akin.trans (Akin.trans ⟨akin.secondTidy, others.secondTidy, equal⟩ others.symm)).equal

section Inversion

variable {second : Waveform}

theorem Akin.constant {value length : Scalar} (akin : Akin (.constant value length) second) :
    ∃ value' length', second = .constant value' length' ∧ value.Alike value' ∧
      length.Alike length' := by
  obtain ⟨shapes, scalarsAlike, _⟩ := (akin_iff _ _).1 akin
  cases second with
  | constant value' length' => simpa [scalars] using scalarsAlike
  | _ => simp [shape] at shapes

theorem Akin.ramp {start stop length : Scalar} (akin : Akin (.ramp start stop length) second) :
    ∃ start' stop' length', second = .ramp start' stop' length' ∧ start.Alike start' ∧
      stop.Alike stop' ∧ length.Alike length' := by
  obtain ⟨shapes, scalarsAlike, _⟩ := (akin_iff _ _).1 akin
  cases second with
  | ramp start' stop' length' => simpa [scalars] using scalarsAlike
  | _ => simp [shape] at shapes

theorem Akin.poly {coefficients : List Scalar} {length : Scalar}
    (akin : Akin (.poly coefficients length) second) :
    ∃ coefficients' length', second = .poly coefficients' length' ∧
      List.Forall₂ Scalar.Alike coefficients coefficients' ∧ length.Alike length' := by
  obtain ⟨shapes, scalarsAlike, _⟩ := (akin_iff _ _).1 akin
  cases second with
  | poly coefficients' length' => simpa [scalars, related_snoc_iff] using scalarsAlike
  | _ => simp [shape] at shapes

theorem Akin.negative {inner : Waveform} (akin : Akin (.negative inner) second) :
    ∃ inner', second = .negative inner' ∧ Akin inner inner' := by
  obtain ⟨shapes, _, childrenAkin⟩ := (akin_iff _ _).1 akin
  cases second with
  | negative inner' => simpa [children] using childrenAkin
  | _ => simp [shape] at shapes

theorem Akin.add {left right : Waveform} (akin : Akin (.add left right) second) :
    ∃ left' right', second = .add left' right' ∧ Akin left left' ∧ Akin right right' := by
  obtain ⟨shapes, _, childrenAkin⟩ := (akin_iff _ _).1 akin
  cases second with
  | add left' right' => simpa [children] using childrenAkin
  | _ => simp [shape] at shapes

theorem Akin.scale {factor : Scalar} {inner : Waveform} (akin : Akin (.scale factor inner) second) :
    ∃ factor' inner', second = .scale factor' inner' ∧ factor.Alike factor' ∧
      Akin inner inner' := by
  obtain ⟨shapes, scalarsAlike, childrenAkin⟩ := (akin_iff _ _).1 akin
  cases second with
  | scale factor' inner' =>
      simpa [scalars, children] using And.intro scalarsAlike childrenAkin
  | _ => simp [shape] at shapes

theorem Akin.append {parts : List Waveform} (akin : Akin (.append parts) second) :
    ∃ parts', second = .append parts' ∧ List.Forall₂ Akin parts parts' := by
  obtain ⟨shapes, _, childrenAkin⟩ := (akin_iff _ _).1 akin
  cases second with
  | append parts' => simpa [children] using childrenAkin
  | _ => simp [shape] at shapes

theorem Akin.slice {inner : Waveform} {interval : Interval}
    (akin : Akin (.slice inner interval) second) :
    ∃ inner' interval', second = .slice inner' interval' ∧ Akin inner inner' ∧
      interval.Alike interval' := by
  obtain ⟨shapes, scalarsAlike, childrenAkin⟩ := (akin_iff _ _).1 akin
  cases second with
  | slice inner' interval' =>
      refine ⟨inner', interval', rfl, by simpa [children] using childrenAkin,
        (Interval.alike_iff _ _).2 ⟨?_, scalarsAlike⟩⟩
      simpa [shape] using shapes
  | _ => simp [shape] at shapes

end Inversion

theorem size_of_same {first second : Waveform} (equal : first.same second = true) :
    first.size = second.size := by
  induction first using Waveform.children_induction generalizing second with
  | step first ih =>
      obtain ⟨_, _, childrenSame⟩ := (same_iff _ _).1 equal
      have sizesSame : first.children.map size = second.children.map size := by
        rw [← List.forall₂_eq_eq_eq, List.forall₂_map_left_iff, List.forall₂_map_right_iff]
        exact Outcome.related_of_mem childrenSame fun child member other same => ih child member same
      rw [size_eq, size_eq, sizes, sizesSame, ← sizes]

theorem symbolic_durations_eq_map (parts : List Waveform) :
    symbolicDurations parts = parts.map symbolicDuration := by
  induction parts with
  | nil => rfl
  | cons part rest ih => rw [symbolicDurations, ih, List.map_cons]

theorem maximum_alike {left left' right right' : Scalar} (leftAlike : left.Alike left')
    (rightAlike : right.Alike right') :
    (Scalar.maximum [left, right]).Alike (Scalar.maximum [left', right']) := by
  have matched := Scalar.matched_of_related (.cons leftAlike (.cons rightAlike .nil))
  exact (Scalar.max_alike_iff _ _).2
    ⟨_, rfl, Scalar.unique_distinct _, Scalar.unique_distinct _, matched.unique⟩

theorem sum_of_durations_alike {durations others : List Scalar}
    (related : List.Forall₂ Scalar.Alike durations others) :
    (sumOfDurations durations).Alike (sumOfDurations others) := by
  cases related with
  | nil => exact .refl rfl
  | @cons first other rest others alike related =>
      unfold sumOfDurations
      induction related generalizing first other with
      | nil => exact alike
      | cons next _ ih => exact ih (Scalar.add_alike alike next)

theorem symbolic_duration_alike {first second : Waveform} (akin : Akin first second) :
    first.symbolicDuration.Alike second.symbolicDuration := by
  induction first using Waveform.parts_induction generalizing second with
  | constant value length =>
      obtain ⟨_, _, rfl, _, lengths⟩ := akin.constant
      exact lengths
  | ramp start stop length =>
      obtain ⟨_, _, _, rfl, _, _, lengths⟩ := akin.ramp
      exact lengths
  | poly coefficients length =>
      obtain ⟨_, _, rfl, _, lengths⟩ := akin.poly
      exact lengths
  | native name function length parameters =>
      obtain ⟨shapes, scalarsAlike, _⟩ := (akin_iff _ _).1 akin
      cases second with
      | native => exact (List.forall₂_cons.1 scalarsAlike).1
      | _ => simp [shape] at shapes
  | negative inner ih =>
      obtain ⟨_, rfl, inners⟩ := akin.negative
      have lengths := ih inners
      exact lengths
  | add left right leftIh rightIh =>
      obtain ⟨_, _, rfl, lefts, rights⟩ := akin.add
      exact maximum_alike (leftIh lefts) (rightIh rights)
  | scale factor inner ih =>
      obtain ⟨_, _, rfl, _, inners⟩ := akin.scale
      have lengths := ih inners
      exact lengths
  | slice inner interval ih =>
      obtain ⟨_, _, rfl, inners, bounds⟩ := akin.slice
      exact Scalar.slice_alike (ih inners) bounds.1 bounds.2
  | append parts ih =>
      obtain ⟨parts', rfl, related⟩ := akin.append
      rw [symbolicDuration, symbolicDuration, symbolic_durations_eq_map, symbolic_durations_eq_map]
      refine sum_of_durations_alike ?_
      rw [List.forall₂_map_left_iff, List.forall₂_map_right_iff]
      exact Outcome.related_of_mem related fun part member other partsAkin =>
        ih part member partsAkin
  | record name inner side ih =>
      obtain ⟨shapes, _, childrenAkin⟩ := (akin_iff _ _).1 akin
      cases second with
      | record =>
          have lengths := ih (List.forall₂_cons.1 childrenAkin).1
          exact lengths
      | _ => simp [shape] at shapes
  | sample inner step interpolation ih =>
      obtain ⟨shapes, _, childrenAkin⟩ := (akin_iff _ _).1 akin
      cases second with
      | sample =>
          have lengths := ih (List.forall₂_cons.1 childrenAkin).1
          exact lengths
      | _ => simp [shape] at shapes
  | smooth inner radius kernel ih =>
      obtain ⟨shapes, _, childrenAkin⟩ := (akin_iff _ _).1 akin
      cases second with
      | smooth =>
          have lengths := ih (List.forall₂_cons.1 childrenAkin).1
          exact lengths
      | _ => simp [shape] at shapes
  | aligned inner alignment fill ih =>
      obtain ⟨shapes, _, childrenAkin⟩ := (akin_iff _ _).1 akin
      cases second with
      | aligned =>
          have lengths := ih (List.forall₂_cons.1 childrenAkin).1
          exact lengths
      | _ => simp [shape] at shapes

end Waveform

end Analog
