import Analog.Proofs.Evaluation
import Analog.Proofs.SignalRefinement
import Analog.Proofs.SubstitutedScalars
import Analog.Waveform.Builtin

/-!
# Meaning of assigned waveforms

An assigned scalar evaluates, under any further bindings, as the scalar itself does where
the assigned values hide those of the same names: to the same value or to the same failure.
An assigned waveform lasts as long and has the same values, although minima and maxima have
lost repeated operands and records of assigned variables are gone. Only what a failure shows
of a waveform can differ, so for waveforms outcomes are compared by their success.
-/

set_option autoImplicit false

namespace Analog

namespace Outcome

variable {α β γ δ : Type}

/-- Outcomes that both fail, or both succeed with related results. -/
inductive Agree (relation : α → β → Prop) : Outcome α → Outcome β → Prop
  | ok {first : α} {second : β} (related : relation first second) :
      Agree relation (.ok first) (.ok second)
  | error (failure other : Failure) : Agree relation (.error failure) (.error other)

namespace Agree

theorem of_iff {first second : Outcome α}
    (alike : ∀ value, first = .ok value ↔ second = .ok value) : Agree Eq first second := by
  cases first with
  | ok value =>
      rw [(alike value).1 rfl]
      exact .ok rfl
  | error failure =>
      cases second with
      | ok value => exact absurd ((alike value).2 rfl) (by simp)
      | error other => exact .error failure other

theorem ok_iff {first second : Outcome α} (agree : Agree Eq first second) (value : α) :
    first = .ok value ↔ second = .ok value := by
  cases agree with
  | ok same => rw [same]
  | error failure other => simp

theorem bind {relation : α → β → Prop} {next : γ → δ → Prop} {first : Outcome α}
    {second : Outcome β} {work : α → Outcome γ} {other : β → Outcome δ}
    (agree : Agree relation first second)
    (works : ∀ value result, first = .ok value → second = .ok result → relation value result →
      Agree next (work value) (other result)) :
    Agree next (first >>= work) (second >>= other) := by
  cases agree with
  | ok related => exact works _ _ rfl rfl related
  | error failure failure' => exact .error failure failure'

theorem map {relation : α → β → Prop} {next : γ → δ → Prop} {first : Outcome α}
    {second : Outcome β} {f : α → γ} {g : β → δ} (agree : Agree relation first second)
    (keeps : ∀ value result, relation value result → next (f value) (g result)) :
    Agree next (f <$> first) (g <$> second) := by
  cases agree with
  | ok related => exact .ok (keeps _ _ related)
  | error failure other => exact .error failure other

end Agree

end Outcome

open Outcome

namespace Scalar

variable {bindings : ScalarBindings}

theorem chosen_substitute_iff {given : ScalarBindings} {before : Decimal → Decimal → Prop}
    {operands : List Scalar} {value : Decimal}
    (each : ∀ operand ∈ operands, ∀ number, (operand.substitute given).eval bindings = .ok number ↔
      operand.eval (bindings.override given) = .ok number) :
    Chosen before bindings (unique (substituteAll given operands)) value ↔
      Chosen before (bindings.override given) operands value := by
  rw [substitute_all_eq_map, chosen_unique_iff
    (List.forall_mem_map.2 fun operand _ => substitute_tidy given operand)]
  constructor
  · intro chosen
    refine ⟨fun operand member => ?_, ?_⟩
    · obtain ⟨number, numberOk, least⟩ := chosen.all _ (List.mem_map_of_mem member)
      exact ⟨number, (each operand member number).1 numberOk, least⟩
    · obtain ⟨result, resultMember, resultOk⟩ := chosen.one
      obtain ⟨operand, member, rfl⟩ := List.mem_map.1 resultMember
      exact ⟨operand, member, (each operand member value).1 resultOk⟩
  · intro chosen
    refine ⟨List.forall_mem_map.2 fun operand member => ?_, ?_⟩
    · obtain ⟨number, numberOk, least⟩ := chosen.all operand member
      exact ⟨number, (each operand member number).2 numberOk, least⟩
    · obtain ⟨operand, member, operandOk⟩ := chosen.one
      exact ⟨_, List.mem_map_of_mem member, (each operand member value).2 operandOk⟩

theorem eval_bound_substitute_iff {given : ScalarBindings} {bound : Option Scalar}
    {value : Option Decimal}
    (each : ∀ found ∈ bound, ∀ number, (found.substitute given).eval bindings = .ok number ↔
      found.eval (bindings.override given) = .ok number) :
    evalBound bindings (substituteBound given bound) = .ok value ↔
      evalBound (bindings.override given) bound = .ok value := by
  rw [eval_bound_ok_iff, eval_bound_ok_iff]
  cases bound with
  | none => cases value <;> simp [substituteBound]
  | some found =>
      cases value with
      | none => simp [substituteBound]
      | some number => simpa [substituteBound] using each found rfl number

/-- A substituted scalar has the values of the scalar where the substituted values are bound. -/
theorem eval_substitute_ok_iff (given bindings : ScalarBindings) (scalar : Scalar)
    (value : Decimal) :
    (scalar.substitute given).eval bindings = .ok value ↔
      scalar.eval (bindings.override given) = .ok value := by
  induction scalar using Scalar.parts_induction generalizing value with
  | literal number => rfl
  | named name =>
      rw [eval_variable_ok_iff, substitute, NameMap.find_override]
      cases given.find? name with
      | none => exact eval_variable_ok_iff bindings name value
      | some number => simp
  | assigned name number => rfl
  | negative operand ih => simp only [substitute, eval_negative_ok_iff, ih]
  | add left right leftIh rightIh => simp only [substitute, eval_add_ok_iff, leftIh, rightIh]
  | mul left right leftIh rightIh => simp only [substitute, eval_mul_ok_iff, leftIh, rightIh]
  | div left right leftIh rightIh => simp only [substitute, eval_div_ok_iff, leftIh, rightIh]
  | min operands ih =>
      rw [substitute, minimum, eval_min_ok_iff, eval_min_ok_iff, chosen_substitute_iff ih]
  | max operands ih =>
      rw [substitute, maximum, eval_max_ok_iff, eval_max_ok_iff, chosen_substitute_iff ih]
  | slice extent start stop extentIh startIh stopIh =>
      simp only [substitute, eval_slice_ok_iff, extentIh, eval_bound_substitute_iff startIh,
        eval_bound_substitute_iff stopIh]

theorem eval_substitute_agree (given bindings : ScalarBindings) (scalar : Scalar) :
    Agree Eq ((scalar.substitute given).eval bindings)
      (scalar.eval (bindings.override given)) :=
  .of_iff (eval_substitute_ok_iff given bindings scalar)

theorem eval_all_substitute_agree (given bindings : ScalarBindings) (operands : List Scalar) :
    Agree Eq (evalAll bindings (substituteAll given operands))
      (evalAll (bindings.override given) operands) := by
  induction operands with
  | nil => exact .ok rfl
  | cons operand rest ih =>
      refine (eval_substitute_agree given bindings operand).bind fun value _ _ _ same => ?_
      subst same
      refine ih.bind fun values _ _ _ sameValues => ?_
      subst sameValues
      exact .ok rfl

end Scalar

namespace Waveform

open Signal

theorem leaf_duration_substitute (given bindings : ScalarBindings) (duration : Scalar) :
    Agree Eq (leafDuration bindings (duration.substitute given))
      (leafDuration (bindings.override given) duration) := by
  apply Agree.of_iff
  intro value
  rw [leaf_duration_ok_iff, leaf_duration_ok_iff, Scalar.eval_substitute_ok_iff]

theorem slice_bounds_substitute (given bindings : ScalarBindings) (subject other : Unit → String)
    (interval : Interval) (extent : Decimal) :
    Agree Eq (sliceBounds bindings subject (interval.substitute given) extent)
      (sliceBounds (bindings.override given) other interval extent) := by
  apply Agree.of_iff
  rintro ⟨lower, upper⟩
  have bounds : ∀ (bound : Option Scalar) (value : Option Decimal),
      Scalar.evalBound bindings (Scalar.substituteBound given bound) = .ok value ↔
        Scalar.evalBound (bindings.override given) bound = .ok value := fun bound value =>
    Scalar.eval_bound_substitute_iff fun found _ =>
      Scalar.eval_substitute_ok_iff given bindings found
  simp only [slice_bounds_ok_iff, Interval.substitute, bounds]

variable {given bindings : ScalarBindings}

theorem leaf_agree {time : Scalar} {shape shape' : Decimal → Decimal → Outcome Decimal}
    (agree : ∀ length moment, Agree Eq (shape length moment) (shape' length moment)) :
    Agree Alike
      (do
        let length ← leafDuration bindings (time.substitute given)
        return within length (shape length))
      (do
        let length ← leafDuration (bindings.override given) time
        return within length (shape' length)) := by
  refine (leaf_duration_substitute given bindings time).bind fun length _ _ _ same => ?_
  subst same
  exact .ok ⟨.of_inside fun moment _ _ value => ((agree length moment).ok_iff value).1,
    .of_inside fun moment _ _ value => ((agree length moment).ok_iff value).2⟩

variable [Natives]

/-- A waveform around another one, when its construction keeps signals alike. -/
theorem wrapped_agree {inner : Waveform} {shape shape' : Signal → Signal}
    (ih : Agree Alike ((inner.substitute given).signal bindings)
      (inner.signal (bindings.override given)))
    (keeps : ∀ meaning other, Alike meaning other → Alike (shape meaning) (shape' other)) :
    Agree Alike
      (do
        let meaning ← (inner.substitute given).signal bindings
        return shape meaning)
      (do
        let meaning ← inner.signal (bindings.override given)
        return shape' meaning) :=
  ih.bind fun meaning other _ _ alike => .ok (keeps meaning other alike)

theorem signals_substitute {parts : List Waveform}
    (each : ∀ part ∈ parts, Agree Alike ((part.substitute given).signal bindings)
      (part.signal (bindings.override given))) :
    Agree (List.Forall₂ Alike) (signals bindings (substituteAll given parts))
      (signals (bindings.override given) parts) := by
  induction parts with
  | nil => exact .ok .nil
  | cons part rest ih =>
      refine (each part (by simp)).bind fun meaning other _ _ alike => ?_
      refine (ih fun later member => each later (by simp [member])).bind
        fun meanings others _ _ allAlike => ?_
      exact .ok (.cons alike allAlike)

theorem concatenate_alike {parts others : List Waveform} {meanings meanings' : List Signal}
    {first second : ScalarBindings} (means : signals first parts = .ok meanings)
    (means' : signals second others = .ok meanings') (alike : List.Forall₂ Alike meanings meanings') :
    Alike (concatenate meanings) (concatenate meanings') := by
  have bounded := signals_bounded means
  have bounded' := signals_bounded means'
  exact ⟨concatenate_refines (alike.imp fun _ _ one => one.forth) bounded bounded',
    concatenate_refines (alike.flip.imp fun _ _ one => one.back) bounded' bounded⟩

/-- A substituted waveform means what the waveform means where the substituted values are
bound. -/
theorem signal_substitute (given bindings : ScalarBindings) (waveform : Waveform) :
    Agree Alike ((waveform.substitute given).signal bindings)
      (waveform.signal (bindings.override given)) := by
  have values := Scalar.eval_substitute_agree given bindings
  induction waveform using Waveform.parts_induction with
  | constant value duration => exact leaf_agree fun _ _ => values value
  | ramp start stop duration =>
      refine leaf_agree fun length moment => (values start).bind fun first _ _ _ same => ?_
      subst same
      refine (values stop).bind fun last _ _ _ sameLast => ?_
      subst sameLast
      exact .of_iff fun _ => Iff.rfl
  | poly coefficients duration =>
      refine leaf_agree fun length moment =>
        (Scalar.eval_all_substitute_agree given bindings coefficients).bind fun found _ _ _ same => ?_
      subst same
      exact .ok rfl
  | native name function duration parameters =>
      refine leaf_agree fun length moment =>
        (Scalar.eval_all_substitute_agree given bindings parameters).bind fun found _ _ _ same => ?_
      subst same
      exact .of_iff fun _ => Iff.rfl
  | negative inner ih =>
      exact wrapped_agree ih fun _ _ alike => ⟨alike.forth.negate, alike.back.negate⟩
  | add left right leftIh rightIh =>
      refine leftIh.bind fun _ _ _ _ leftAlike => rightIh.bind fun _ _ _ _ rightAlike => .ok ?_
      exact ⟨leftAlike.forth.plus rightAlike.forth, leftAlike.back.plus rightAlike.back⟩
  | scale factor inner ih =>
      exact wrapped_agree ih fun _ _ alike =>
        ⟨.scaled_by (fun value => ((values factor).ok_iff value).1) alike.forth,
          .scaled_by (fun value => ((values factor).ok_iff value).2) alike.back⟩
  | slice inner interval ih =>
      refine ih.bind fun meaning other _ _ alike => ?_
      rw [alike.back.lasts]
      refine (slice_bounds_substitute given bindings _ _ interval _).bind fun bounds _ _ _ same => ?_
      subst same
      exact .ok ⟨alike.forth.cut _ _, alike.back.cut _ _⟩
  | append parts ih =>
      exact (signals_substitute ih).bind fun _ _ means means' alike =>
        .ok (concatenate_alike means means' alike)
  | record name inner side ih =>
      rw [substitute]
      split_ifs
      · exact ih
      · exact ih
  | sample inner step interpolation ih =>
      exact wrapped_agree ih fun _ _ alike =>
        ⟨.sampled_by interpolation (fun value => ((values step).ok_iff value).1) alike.forth,
          .sampled_by interpolation (fun value => ((values step).ok_iff value).2) alike.back⟩
  | smooth inner radius kernel ih =>
      exact wrapped_agree ih fun _ _ alike =>
        ⟨.smoothed_by kernel (fun value => ((values radius).ok_iff value).1) alike.forth,
          .smoothed_by kernel (fun value => ((values radius).ok_iff value).2) alike.back⟩
  | aligned inner alignment fill ih => exact ih

theorem duration_substitute (given bindings : ScalarBindings) (waveform : Waveform) :
    Agree Eq ((waveform.substitute given).duration bindings)
      (waveform.duration (bindings.override given)) := by
  rw [duration_eq_map_signal, duration_eq_map_signal]
  exact (signal_substitute given bindings waveform).map fun _ _ alike => alike.back.lasts

theorem value_at_substitute (given bindings : ScalarBindings) (waveform : Waveform)
    (time : Decimal) :
    Agree Eq ((waveform.substitute given).valueAt bindings time)
      (waveform.valueAt (bindings.override given) time) :=
  (signal_substitute given bindings waveform).bind fun _ _ _ _ alike =>
    .of_iff fun value => ⟨alike.forth.values time value, alike.back.values time value⟩

theorem evaluator_value_ok_iff (bindings : ScalarBindings) (waveform : Waveform)
    (time value : Decimal) :
    (do
      let evaluator ← Evaluator.of bindings waveform
      evaluator.valueAt time) = .ok value ↔ waveform.valueAt bindings time = .ok value := by
  rw [valueAt, Outcome.bind_ok_iff, Outcome.bind_ok_iff]
  constructor
  · rintro ⟨evaluator, made, found⟩
    obtain ⟨length, lasts⟩ := Evaluator.of_ok_iff.1 ⟨evaluator, made⟩
    obtain ⟨meaning, means, _⟩ := signal_of_duration lasts
    obtain ⟨other, otherMade, _, finds⟩ := Evaluator.of_signal means
    obtain rfl : evaluator = other := Except.ok.inj (made.symm.trans otherMade)
    exact ⟨meaning, means, (finds time value).1 found⟩
  · rintro ⟨meaning, means, found⟩
    obtain ⟨evaluator, made, _, finds⟩ := Evaluator.of_signal means
    exact ⟨evaluator, made, (finds time value).2 found⟩

end Waveform

/-- Assignment is substitution. An assigned scalar gives the value or the failure that the scalar
gives where the assigned values hide others of the same names; the operands of its minima and
maxima are all different, as their constructors leave them. An assigned waveform has a duration,
and a value at a time, exactly when the waveform has them there, and they are equal. -/
theorem assigned_evaluates_as_bound [Natives] (given : Bindings) (bindings : ScalarBindings) :
    (∀ scalar result : Scalar, scalar.tidy = true → scalar.assign given.scalars = .ok result →
      result.eval bindings = scalar.eval (bindings.override given.scalars)) ∧
    ∀ waveform result : Waveform, waveform.assign given.scalars = .ok result →
      (∀ length, result.duration bindings = .ok length ↔
        waveform.duration (bindings.override given.scalars) = .ok length) ∧
      ∀ time value,
        (result.valueAt bindings time = .ok value ↔
          waveform.valueAt (bindings.override given.scalars) time = .ok value) ∧
        ((do
            let evaluator ← Evaluator.of bindings result
            evaluator.valueAt time) = .ok value ↔
          (do
            let evaluator ← Evaluator.of (bindings.override given.scalars) waveform
            evaluator.valueAt time) = .ok value) := by
  constructor
  · intro scalar result tidied assigned
    have guarded := scalar.assign_guarded given
    by_cases spared : given.Spares scalar.assignments
    · rw [guarded.succeeds spared, Except.ok.injEq] at assigned
      rw [← assigned, Scalar.substitute_eq_replace scalar tidied spared, Scalar.eval_replace]
    · obtain ⟨_, _, _, failed⟩ := guarded.conflicts spared
      rw [failed] at assigned
      cases assigned
  · intro waveform result assigned
    have guarded := waveform.assign_guarded given
    by_cases spared : given.Spares waveform.assignments
    · rw [guarded.succeeds spared, Except.ok.injEq] at assigned
      subst assigned
      have values := fun time =>
        (waveform.value_at_substitute given.scalars bindings time).ok_iff
      refine ⟨(waveform.duration_substitute given.scalars bindings).ok_iff, fun time value => ?_⟩
      refine ⟨values time value, ?_⟩
      rw [Waveform.evaluator_value_ok_iff, Waveform.evaluator_value_ok_iff]
      exact values time value
    · obtain ⟨_, _, _, failed⟩ := guarded.conflicts spared
      rw [failed] at assigned
      cases assigned

def rampThenHold : Waveform :=
  .append
    [.record "end" (.ramp (.literal 0) (.literal 2) (.variable "rise")) .right,
      .constant (.variable "end") (.minimum [.variable "end", .variable "rise"])]

def rampThenHeld : Waveform :=
  .append
    [.ramp (.literal 0) (.literal 2) (.variable "rise"),
      .constant (.assigned "end" 2) (.min [.assigned "end" 2, .variable "rise"])]

theorem assigned_evaluates_as_bound_held :
    rampThenHold.assign (.ofList [("end", 2)]) = .ok rampThenHeld ∧
      rampThenHeld.duration (.ofList [("rise", 3)]) = .ok 5 ∧
      rampThenHeld.valueAt (.ofList [("rise", 3)]) 4 = .ok 2 ∧
      (Scalar.min [.assigned "end" 2, .div (.literal 1) (.variable "rise")]).eval
          (.ofList [("rise", 0)]) = .error (.divisionByZero "(/ 1 rise)") := by
  have assigned : rampThenHold.assign (.ofList [("end", 2)]) = .ok rampThenHeld := by rfl
  obtain ⟨_, waveforms⟩ :=
    assigned_evaluates_as_bound ⟨.ofList [("end", 2)], .empty⟩ (.ofList [("rise", 3)])
  obtain ⟨lasts, values⟩ := waveforms rampThenHold rampThenHeld assigned
  obtain ⟨scalars, _⟩ :=
    assigned_evaluates_as_bound ⟨.ofList [("end", 2)], .empty⟩ (.ofList [("rise", 0)])
  refine ⟨assigned, (lasts 5).2 rfl, (values 4 2).1.2 rfl, ?_⟩
  exact (scalars (.min [.variable "end", .div (.literal 1) (.variable "rise")]) _ rfl rfl).trans rfl

end Analog
