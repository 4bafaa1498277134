import Analog.Proofs.CheckedArguments
import Analog.Proofs.SequenceParts

/-!
# How reading fails

Every rule does what the form of its tag says. It makes something of the kind of the form where the
arguments fit, and complains about the list or a term inside it where they do not; only a rule that
relies on its last argument aborts, and only where this argument alone is wrong. So whether a text
is read, and how it fails if it is not, is decided by the first list that is not well-formed.
-/

set_option autoImplicit false

namespace Analog.Tagged

open Text

theorem admits_each_length {parameters : List Parameter} {arguments : List LocatedTerm}
    (admitted : Shape.admitsEach parameters arguments = true) :
    arguments.length = parameters.length := by
  induction parameters generalizing arguments with
  | nil =>
      cases arguments with
      | nil => rfl
      | cons argument rest => cases admitted
  | cons parameter others ih =>
      cases arguments with
      | nil => cases admitted
      | cons argument rest =>
          rw [List.length_cons, List.length_cons, ih (Bool.and_eq_true_iff.1 admitted).2]

theorem breakpoints_length :
    ∀ {arguments}, Shape.breakpoints.admits arguments = true → arguments.length = 2
  | [_, _], _ => rfl
  | [], admitted => by cases admitted
  | [_], admitted => by cases admitted
  | _ :: _ :: _ :: _, admitted => by cases admitted

section Arities

variable {α : Type} {call : Call} {made : α → Prop} {first second third : Parameter}

theorem checks_one {body : Argument → Outcome α} (sound : call.Sound)
    (fits : ∀ one, call.Given one → call.Checks (first.admits one.term = true) (body one) made) :
    call.Checks ((Shape.each [first]).admits call.terms = true)
      (match call.arguments with
        | [one] => body one
        | _ => call.wrongCount 1) made := by
  unfold Call.terms
  split
  · rename_i one same
    refine (fits one (sound one (by simp [same]))).congr ?_
    simp [same, Shape.admits, Shape.admitsEach]
  · rename_i other
    refine .refused (fun admitted => ?_) complains_list
    obtain ⟨one, same⟩ := List.length_eq_one_iff.1 (by simpa using admits_each_length admitted)
    exact other one same

theorem checks_two {body : Argument → Argument → Outcome α} (sound : call.Sound)
    (fits : ∀ one two, call.Given one → call.Given two →
      call.Checks (first.admits one.term = true ∧ second.admits two.term = true) (body one two)
        made) :
    call.Checks ((Shape.each [first, second]).admits call.terms = true)
      (match call.arguments with
        | [one, two] => body one two
        | _ => call.wrongCount 2) made := by
  unfold Call.terms
  split
  · rename_i one two same
    refine (fits one two (sound one (by simp [same])) (sound two (by simp [same]))).congr ?_
    simp [same, Shape.admits, Shape.admitsEach]
  · rename_i other
    refine .refused (fun admitted => ?_) complains_list
    obtain ⟨one, two, same⟩ := List.length_eq_two.1 (by simpa using admits_each_length admitted)
    exact other one two same

theorem checks_three {body : Argument → Argument → Argument → Outcome α} (sound : call.Sound)
    (fits : ∀ one two three, call.Given one → call.Given two → call.Given three →
      call.Checks (first.admits one.term = true ∧ second.admits two.term = true ∧
        third.admits three.term = true) (body one two three) made) :
    call.Checks ((Shape.each [first, second, third]).admits call.terms = true)
      (match call.arguments with
        | [one, two, three] => body one two three
        | _ => call.wrongCount 3) made := by
  unfold Call.terms
  split
  · rename_i one two three same
    refine (fits one two three (sound one (by simp [same])) (sound two (by simp [same]))
      (sound three (by simp [same]))).congr ?_
    simp [same, Shape.admits, Shape.admitsEach]
  · rename_i other
    refine .refused (fun admitted => ?_) complains_list
    obtain ⟨one, two, three, same⟩ :=
      List.length_eq_three.1 (by simpa using admits_each_length admitted)
    exact other one two three same

end Arities

/-- What is made of a call is as its form has it: a thing of the right kind where the arguments fit,
and a complaint where they do not. -/
def Call.Fulfils (call : Call) (form : Form) (outcome : Outcome Fragment) : Prop :=
  call.Checks (form.shape.admits call.terms = true) outcome fun value => value.kind = form.result

section Kinds

variable {α β : Type} {call : Call} {sort : Fragment → Option α} {sort₂ : Fragment → Option β}
  {kind kind₂ result : Kind} {what what₂ : String} (sound : call.Sound) (sorts : Sorts sort kind)
include sound sorts

theorem one_fulfils {build : α → Fragment} (makes : ∀ value, (build value).kind = result) :
    call.Fulfils ⟨result, .each [.kind kind]⟩
      (match call.arguments with
        | [one] => do
          let value ← call.need what sort one
          return build value
        | _ => call.wrongCount 1) :=
  checks_one sound fun _ one => (one.need sorts).map fun value _ => makes value

theorem two_fulfil {build : α → β → Fragment} (sorts₂ : Sorts sort₂ kind₂)
    (makes : ∀ value value₂, (build value value₂).kind = result) :
    call.Fulfils ⟨result, .each [.kind kind, .kind kind₂]⟩
      (match call.arguments with
        | [one, two] => do
          let value ← call.need what sort one
          let value₂ ← call.need what₂ sort₂ two
          return build value value₂
        | _ => call.wrongCount 2) :=
  checks_two sound fun _ _ one two => (one.need sorts).bind fun value _ =>
    (two.need sorts₂).map fun value₂ _ => makes value value₂

theorem cut_fulfils {build : α → Interval → Fragment}
    (makes : ∀ value interval, (build value interval).kind = result) :
    call.Fulfils ⟨result, .each [.kind kind, .bound, .bound]⟩
      (match call.arguments with
        | [one, start, stop] => do
          let value ← call.need what sort one
          let interval ← call.interval start stop
          return build value interval
        | _ => call.wrongCount 3) :=
  checks_three sound fun _ _ _ one start stop => (one.need sorts).bind fun value _ =>
    (interval_checks start stop).map fun interval _ => makes value interval

theorem all_fulfil {build : List α → Fragment} (makes : ∀ values, (build values).kind = result) :
    call.Fulfils ⟨result, .all 0 (.kind kind)⟩
      (call.arguments.mapM (call.need what sort) >>= fun values => pure (build values)) := by
  refine ((checks_mapM fun argument member => (sound argument member).need sorts).map
    fun values _ => makes values).congr ?_
  simp [Shape.admits, Call.terms]

theorem some_fulfil {build : List α → Fragment} {complaint : String}
    (makes : ∀ values, (build values).kind = result) :
    call.Fulfils ⟨result, .all 1 (.kind kind)⟩
      (match call.arguments with
        | [] => call.complain complaint
        | arguments => do
          let values ← arguments.mapM (call.need what sort)
          return build values) := by
  split
  · rename_i none
    exact .refused (by simp [Shape.admits, Call.terms, none]) complains_list
  · rename_i some
    refine (all_fulfil sound sorts makes).congr ?_
    have notEmpty : call.arguments.length ≠ 0 := mt List.length_eq_zero_iff.1 some
    simp [Shape.admits, Call.terms, Nat.one_le_iff_ne_zero, notEmpty]

end Kinds

theorem fields_tabulated : Tabulates FieldName.ofName? Fragment.field? .field
    (fun table : PerField Field => table.get?) PerField.insert where
  sameName := by
    intro name other key found otherFound
    have same := List.find?_some found
    have otherSame := List.find?_some otherFound
    exact (beq_iff_eq.1 same).symm.trans (beq_iff_eq.1 otherSame)
  isTag := by
    intro name key found
    rw [entry_tag_iff, found]
    rfl
  sorts := field_sorts
  getInsert := PerField.get_insert

theorem pulses_tabulated : Tabulates Coupling.ofName? Fragment.pulse? .pulse
    (fun table : PerCoupling Pulse => table.get?) PerCoupling.insert where
  sameName := by
    intro name other key found otherFound
    have same := List.find?_some found
    have otherSame := List.find?_some otherFound
    exact (beq_iff_eq.1 same).symm.trans (beq_iff_eq.1 otherSame)
  isTag := by
    intro name key found
    rw [entry_tag_iff, found, Option.isSome_some, Bool.or_true]
  sorts := pulse_sorts
  getInsert := PerCoupling.get_insert

section Rules

variable {call : Call}

theorem uniform_fulfils : call.Fulfils ⟨.modulation, .each []⟩ (Rule.uniform call) := by
  unfold Rule.uniform
  split
  · rename_i none
    exact .passed (by simp [Call.terms, none, Shape.admits, Shape.admitsEach]) rfl
  · rename_i some
    refine .refused (fun admitted => some ?_) complains_list
    simpa [Call.terms] using admits_each_length admitted

theorem add_field_checks {argument : Argument} (given : call.Given argument)
    {fields : PerField Field} {names : List (Option String)}
    (has : HasNames FieldName.ofName? (fun table : PerField Field => table.get?) fields names) :
    call.Checks
      ((Parameter.under FieldName.ofName? .field).admits argument.term = true ∧
        argument.term.tag? ∉ names)
      (Rule.addField call fields argument) fun next =>
        HasNames FieldName.ofName? (fun table : PerField Field => table.get?) next
          (argument.term.tag? :: names) := by
  have checks := entry_checks fields_tabulated given has "field entry" "expected field name"
    "expected field" "duplicate field"
  unfold Rule.addField
  convert checks using 3 with found
  obtain ⟨name, value⟩ := found
  dsimp only
  cases FieldName.ofName? name <;> cases value.field? <;> rfl

theorem add_pulse_checks {argument : Argument} (given : call.Given argument)
    {pulses : PerCoupling Pulse} {names : List (Option String)}
    (has : HasNames Coupling.ofName? (fun table : PerCoupling Pulse => table.get?) pulses names) :
    call.Checks
      ((Parameter.under Coupling.ofName? .pulse).admits argument.term = true ∧
        argument.term.tag? ∉ names)
      (Rule.addPulse call pulses argument) fun next =>
        HasNames Coupling.ofName? (fun table : PerCoupling Pulse => table.get?) next
          (argument.term.tag? :: names) := by
  have checks := entry_checks pulses_tabulated given has "coupling entry"
    "expected level coupling" "expected pulse" "duplicate level coupling"
  unfold Rule.addPulse
  convert checks using 3 with found
  obtain ⟨name, value⟩ := found
  dsimp only
  cases Coupling.ofName? name <;> cases value.pulse? <;> rfl

variable (sound : call.Sound)
include sound

theorem literal_fulfils : call.Fulfils ⟨.scalar, .each [.number]⟩ (Rule.literal call) :=
  checks_one sound fun _ value => value.number.map fun _ _ => rfl

theorem assigned_fulfils : call.Fulfils ⟨.scalar, .each [.name, .number]⟩ (Rule.assigned call) :=
  checks_two sound fun _ _ name value => (name.need symbol_sorts).bind fun _ _ =>
    value.number.map fun _ _ => rfl

theorem ramp_fulfils :
    call.Fulfils ⟨.waveform, .each [.scalar, .scalar, .scalar]⟩ (Rule.ramp call) :=
  checks_three sound fun _ _ _ start stop duration => (start.need scalar_sorts).bind fun _ _ =>
    (stop.need scalar_sorts).bind fun _ _ => (duration.need scalar_sorts).map fun _ _ => rfl

theorem record_waveform_fulfils :
    call.Fulfils ⟨.waveform, .each [.name, .waveform, .side]⟩ (Rule.recordWaveform call) :=
  checks_three sound fun _ _ _ name inner side => (name.need symbol_sorts).bind fun _ _ =>
    (inner.need waveform_sorts).bind fun _ _ => side.word.map fun _ _ => rfl

theorem sample_waveform_fulfils :
    call.Fulfils ⟨.waveform, .each [.waveform, .scalar, .oneOf Interpolation.ofName?]⟩
      (Rule.sampleWaveform call) :=
  checks_three sound fun _ _ _ inner step word => (inner.need waveform_sorts).bind fun _ _ =>
    (step.need scalar_sorts).bind fun _ _ => word.word.map fun _ _ => rfl

theorem smooth_waveform_fulfils :
    call.Fulfils ⟨.waveform, .each [.waveform, .scalar, .oneOf Kernel.ofName?]⟩
      (Rule.smoothWaveform call) :=
  checks_three sound fun _ _ _ inner radius word => (inner.need waveform_sorts).bind fun _ _ =>
    (radius.need scalar_sorts).bind fun _ _ => word.word.map fun _ _ => rfl

theorem aligned_waveform_fulfils :
    call.Fulfils ⟨.waveform, .each [.waveform, .side, .either .side .scalar]⟩
      (Rule.alignedWaveform call) :=
  checks_three sound fun _ _ _ inner side fill => (inner.need waveform_sorts).bind fun _ _ =>
    side.word.bind fun _ _ => fill.fill.map fun _ _ => rfl

theorem assigned_vector_fulfils :
    call.Fulfils ⟨.modulation, .each [.name, .numbers]⟩ (Rule.assignedVector call) :=
  checks_two sound fun _ _ name values => (name.need symbol_sorts).bind fun _ _ =>
    values.numbers.map fun _ _ => rfl

theorem location_fulfils :
    call.Fulfils ⟨.location, .each [.oneOf Rule.siteNumber?, .scalar]⟩ (Rule.location call) := by
  refine checks_two sound fun site weight siteGiven weightGiven => ?_
  refine siteGiven.text fun text _ => ?_
  cases Rule.siteNumber? text with
  | none => exact .refused (by simp) siteGiven.complains
  | some number =>
      have made : call.Checks _ (call.scalar weight >>= fun scalar =>
          pure (Fragment.location ⟨.ofNat number, scalar⟩)) fun value => value.kind = .location :=
        (weightGiven.need scalar_sorts).map fun _ _ => rfl
      exact made.congr (and_iff_right rfl).symm

theorem site_fulfils (filled : Bool) :
    call.Fulfils ⟨.site, .each [.number, .number]⟩ (Rule.site filled call) :=
  checks_two sound fun _ _ x y => x.number.bind fun _ _ => y.number.map fun _ _ => rfl

theorem entry_fulfils (tag : String) :
    call.Fulfils ⟨.entry, .each [.anything]⟩ (Rule.entry tag call) :=
  checks_one sound fun _ _ => .passed rfl rfl

theorem pulse_fulfils :
    call.Fulfils ⟨.pulse, .table (.under FieldName.ofName? .field)⟩ (Rule.pulse call) := by
  have empty : HasNames FieldName.ofName? (fun table : PerField Field => table.get?) .empty [] := by
    simp [HasNames]
  have filled : call.Checks _ (call.arguments.foldlM (Rule.addField call) .empty) fun _ => True :=
    entries_check (fun given has => add_field_checks given has) sound empty
  have made : call.Checks _ (Rule.pulse call) fun value => value.kind = .pulse :=
    filled.map fun _ _ => rfl
  refine made.congr ?_
  simp [Shape.admits, Call.terms, Function.comp_def]

theorem sequence_fulfils :
    call.Fulfils ⟨.sequence, .table (.under Coupling.ofName? .pulse)⟩ (Rule.sequence call) := by
  have empty : HasNames Coupling.ofName? (fun table : PerCoupling Pulse => table.get?) .empty [] := by
    simp [HasNames]
  have filled : call.Checks _ (call.arguments.foldlM (Rule.addPulse call) .empty) fun _ => True :=
    entries_check (fun given has => add_pulse_checks given has) sound empty
  have made : call.Checks _ (Rule.sequence call) fun value => value.kind = .sequence :=
    filled.map fun _ _ => rfl
  refine made.congr ?_
  simp [Shape.admits, Call.terms, Function.comp_def]

theorem series_fulfils (target : Target) :
    call.Fulfils ⟨.series, .breakpoints⟩ (Rule.series (Series.ofLists target) call) := by
  unfold Rule.series Call.Fulfils Call.terms
  split
  · rename_i times values same
    have timesGiven := sound times (by simp [same])
    have valuesGiven := sound values (by simp [same])
    have admitted : (Parameter.numbers.admits times.term = true ∧
        Parameter.numbers.admits values.term = true ∧
        Breakpoints.Paired times.term.numbers values.term.numbers) ↔
        Shape.breakpoints.admits (call.arguments.map (·.term)) = true := by
      simp [same, Shape.admits, and_assoc]
    refine .congr (timesGiven.numbers.bind fun timeList sameTimes =>
      valuesGiven.numbers.bind fun valueList sameValues => ?_) admitted
    subst sameTimes sameValues
    cases made : Series.ofLists target times.term.numbers values.term.numbers with
    | ok series =>
        obtain ⟨points, fromLists, _⟩ := (Series.of_lists_ok_iff _ _ _ _).1 made
        exact .passed ((Breakpoints.of_lists_ok_iff _ _ _).1 fromLists).1 rfl
    | error failure =>
        refine .refused (fun paired => ?_) complains_list
        have fromLists := (Breakpoints.of_lists_ok_iff _ _ _).2 ⟨paired, rfl⟩
        rw [(Series.of_lists_ok_iff _ _ _ _).2 ⟨_, fromLists, rfl⟩] at made
        cases made
  · rename_i other
    refine .refused (fun admitted => ?_) complains_list
    obtain ⟨times, values, same⟩ := List.length_eq_two.1 (by simpa using breakpoints_length admitted)
    exact other times values same

end Rules

/-- What is made of a call is as the form of its tag has it. Where a tag relies on its last argument
and only this argument is wrong, nothing is made of it and nothing is complained of. -/
structure Call.Obeys (call : Call) (tag : String) (form : Form) (outcome : Outcome Fragment) :
    Prop where
  passes : form.shape.admits call.terms = true →
    ∃ value, outcome = .ok value ∧ value.kind = form.result
  aborts : tag ∈ relyingTags → form.shape.lacksLast call.terms = true →
    outcome = .error (.abort .missing)
  complains : form.shape.admits call.terms ≠ true →
    ¬(tag ∈ relyingTags ∧ form.shape.lacksLast call.terms = true) → call.Complains outcome

theorem Call.Fulfils.obeys {call : Call} {tag : String} {form : Form} {outcome : Outcome Fragment}
    (fulfils : call.Fulfils form outcome) (plain : tag ∉ relyingTags) :
    call.Obeys tag form outcome where
  passes := fulfils.passes
  aborts := fun relying => absurd relying plain
  complains := fun wrong _ => fulfils.complains wrong

theorem last_wrong_length {parameters : List Parameter} {arguments : List LocatedTerm}
    (wrong : Shape.lastWrong parameters arguments = true) :
    arguments.length = parameters.length := by
  fun_induction Shape.lastWrong parameters arguments with
  | case1 => rfl
  | case2 parameter parameters argument arguments _ ih =>
      rw [List.length_cons, List.length_cons, ih (Bool.and_eq_true_iff.1 wrong).2]
  | case3 => cases wrong

/-- The first of two arguments is checked, and the last is relied on. -/
theorem relying_obeys {α β : Type} {call : Call} {tag : String} {first : Parameter}
    {kind result : Kind} {check : Argument → Outcome α} {sort : Fragment → Option β}
    {build : α → β → Fragment} (sound : call.Sound) (relying : tag ∈ relyingTags)
    {made : Argument → α → Prop}
    (checks : ∀ one, call.Given one →
      call.Checks (first.admits one.term = true) (check one) (made one))
    (sorts : Sorts sort kind) (makes : ∀ value last, (build value last).kind = result) :
    call.Obeys tag ⟨result, .each [first, .kind kind]⟩
      (match call.arguments with
        | [one, two] => do
          let value ← check one
          let last ← Call.rely sort two
          return build value last
        | _ => call.wrongCount 2) := by
  split
  · rename_i one two same
    have checked := checks one (sound one (by simp [same]))
    have lastIff := (sound two (by simp [same])).kind_iff sorts
    have admitsIff : (Shape.each [first, .kind kind]).admits call.terms = true ↔
        first.admits one.term = true ∧ (sort two.value).isSome = true := by
      simp [← lastIff, Call.terms, same, Shape.admits, Shape.admitsEach]
    have lacksIff : (Shape.each [first, .kind kind]).lacksLast call.terms = true ↔
        first.admits one.term = true ∧ ¬(sort two.value).isSome = true := by
      simp [← lastIff, Call.terms, same, Shape.lacksLast, Shape.lastWrong]
    by_cases fits : first.admits one.term = true
    · obtain ⟨value, taken, _⟩ := checked.passes fits
      rw [taken, Outcome.ok_bind]
      unfold Call.rely
      cases found : sort two.value with
      | some last =>
          refine ⟨fun _ => ⟨_, rfl, makes value last⟩, fun _ lacks => ?_, fun wrong _ => ?_⟩
          · exact absurd (found ▸ rfl) (lacksIff.1 lacks).2
          · exact absurd (admitsIff.2 ⟨fits, found ▸ rfl⟩) wrong
      | none =>
          refine ⟨fun admitted => ?_, fun _ _ => rfl, fun _ plain => ?_⟩
          · simpa [found] using (admitsIff.1 admitted).2
          · exact absurd ⟨relying, lacksIff.2 ⟨fits, by simp [found]⟩⟩ plain
    · exact ⟨fun admitted => absurd (admitsIff.1 admitted).1 fits,
        fun _ lacks => absurd (lacksIff.1 lacks).1 fits,
        fun _ _ => (checked.complains fits).bind⟩
  · rename_i other
    have wrongCount : call.terms.length ≠ 2 := by
      intro isTwo
      obtain ⟨one, two, same⟩ := List.length_eq_two.1 (by simpa [Call.terms] using isTwo)
      exact other one two same
    exact ⟨fun admitted => absurd (admits_each_length admitted) wrongCount,
      fun _ lacks => absurd (last_wrong_length lacks) wrongCount, fun _ _ => complains_list⟩

theorem poly_obeys {call : Call} (sound : call.Sound) :
    call.Obeys "poly_waveform" ⟨.waveform, .each [.arrayOf .scalar, .scalar]⟩ (Rule.poly call) := by
  have regrouped : Rule.poly call =
      match call.arguments with
      | [coefficients, duration] => do
        let scalars ← call.items "coefficients" coefficients >>= fun items =>
          items.mapM (call.need "coefficient" Fragment.scalar?)
        let durationScalar ← Call.rely Fragment.scalar? duration
        return waveformNode (.poly scalars durationScalar)
      | _ => call.wrongCount 2 := by
    simp only [bind_assoc]
    rfl
  rw [regrouped]
  exact relying_obeys sound (by decide) (fun _ one => one.array fun _ item => item.need scalar_sorts)
    scalar_sorts fun _ _ => rfl

def Obeying (form : String × Form) (rule : String × (Call → Outcome Fragment)) : Prop :=
  form.1 = rule.1 ∧ ∀ call : Call, call.Sound → call.Obeys form.1 form.2 (rule.2 call)

theorem obeying_of_fulfils {tag : String} {form : Form} {rule : Call → Outcome Fragment}
    (plain : tag ∉ relyingTags) (fulfils : ∀ {call : Call}, call.Sound → call.Fulfils form (rule call)) :
    Obeying (tag, form) (tag, rule) :=
  ⟨rfl, fun _ sound => (fulfils sound).obeys plain⟩

theorem rules_obey : List.Forall₂ Obeying forms rules := by
  have plain {tag form rule} := @obeying_of_fulfils tag form rule
  simp only [forms, rules, List.forall₂_cons]
  exact ⟨plain (by decide) literal_fulfils,
    plain (by decide) fun sound => one_fulfils sound symbol_sorts fun _ => rfl,
    plain (by decide) assigned_fulfils,
    plain (by decide) fun sound => one_fulfils sound scalar_sorts fun _ => rfl,
    plain (by decide) fun sound => two_fulfil sound scalar_sorts scalar_sorts fun _ _ => rfl,
    plain (by decide) fun sound => two_fulfil sound scalar_sorts scalar_sorts fun _ _ => rfl,
    plain (by decide) fun sound => two_fulfil sound scalar_sorts scalar_sorts fun _ _ => rfl,
    plain (by decide) fun sound => some_fulfil sound scalar_sorts fun _ => rfl,
    plain (by decide) fun sound => some_fulfil sound scalar_sorts fun _ => rfl,
    plain (by decide) fun sound => cut_fulfils sound scalar_sorts fun _ _ => rfl,
    plain (by decide) fun sound => two_fulfil sound scalar_sorts scalar_sorts fun _ _ => rfl,
    plain (by decide) ramp_fulfils,
    ⟨rfl, fun _ => poly_obeys⟩,
    plain (by decide) fun sound => one_fulfils sound waveform_sorts fun _ => rfl,
    plain (by decide) fun sound => two_fulfil sound waveform_sorts waveform_sorts fun _ _ => rfl,
    ⟨rfl, fun _ sound => relying_obeys sound (by decide) (fun _ one => one.need scalar_sorts)
      waveform_sorts fun _ _ => rfl⟩,
    plain (by decide) fun sound => cut_fulfils sound waveform_sorts fun _ _ => rfl,
    plain (by decide) fun sound => some_fulfil sound waveform_sorts fun _ => rfl,
    plain (by decide) record_waveform_fulfils,
    plain (by decide) sample_waveform_fulfils,
    plain (by decide) smooth_waveform_fulfils,
    plain (by decide) aligned_waveform_fulfils,
    plain (by decide) fun _ => uniform_fulfils,
    plain (by decide) fun sound => one_fulfils sound symbol_sorts fun _ => rfl,
    plain (by decide) assigned_vector_fulfils,
    plain (by decide) fun sound => all_fulfil sound location_sorts fun _ => rfl,
    plain (by decide) location_fulfils,
    plain (by decide) fun sound => two_fulfil sound modulation_sorts waveform_sorts fun _ _ => rfl,
    plain (by decide) fun sound => all_fulfil sound drive_sorts fun _ => rfl,
    plain (by decide) pulse_fulfils,
    plain (by decide) fun sound => all_fulfil sound pulse_sorts fun _ => rfl,
    plain (by decide) fun sound => cut_fulfils sound pulse_sorts fun _ _ => rfl,
    ⟨rfl, fun _ sound => relying_obeys sound (by decide) (fun _ one => one.need symbol_sorts)
      pulse_sorts fun _ _ => rfl⟩,
    plain (by decide) sequence_fulfils,
    plain (by decide) fun sound => all_fulfil sound sequence_sorts fun _ => rfl,
    plain (by decide) fun sound => cut_fulfils sound sequence_sorts fun _ _ => rfl,
    ⟨rfl, fun _ sound => relying_obeys sound (by decide) (fun _ one => one.need symbol_sorts)
      sequence_sorts fun _ _ => rfl⟩,
    plain (by decide) fun sound => two_fulfil sound register_sorts sequence_sorts fun _ _ => rfl,
    plain (by decide) fun sound => all_fulfil sound site_sorts fun _ => rfl,
    plain (by decide) fun sound => site_fulfils sound true,
    plain (by decide) fun sound => site_fulfils sound false,
    plain (by decide) fun sound => series_fulfils sound .linear,
    plain (by decide) fun sound => series_fulfils sound .constant, .nil⟩

theorem lookup_obeying {formList : List (String × Form)}
    {ruleList : List (String × (Call → Outcome Fragment))}
    (each : List.Forall₂ Obeying formList ruleList) (tag : String) :
    formList.lookup tag = none ∧ ruleList.lookup tag = none ∨
      ∃ form rule, formList.lookup tag = some form ∧ ruleList.lookup tag = some rule ∧
        Obeying (tag, form) (tag, rule) := by
  induction each with
  | nil => exact .inl ⟨rfl, rfl⟩
  | @cons form rule _ _ obeying _ ih =>
      obtain ⟨formTag, form⟩ := form
      obtain ⟨ruleTag, rule⟩ := rule
      obtain rfl : formTag = ruleTag := obeying.1
      simp only [List.lookup_cons]
      cases same : tag == formTag with
      | true =>
          obtain rfl := beq_iff_eq.1 same
          exact .inr ⟨form, rule, rfl, rfl, obeying⟩
      | false => exact ih

/-- A tag has a rule if it has a form, and the rule does what the form says. Only the names of
entries stand for entries, and no tag for symbols or arrays. -/
theorem tag_cases (tag : String) :
    form? tag = none ∧ rule? tag = none ∨
    ∃ form rule, form? tag = some form ∧ rule? tag = some rule ∧
      (∀ call : Call, call.Sound → call.Obeys tag form (rule call)) ∧
      (tag ∈ entryTags ∧ rule = Rule.entry tag ∨
        form.result ∉ [Kind.symbol, .array, .entry]) := by
  have results : ∀ entry ∈ forms, entry.2.result ∉ [Kind.symbol, .array, .entry] := by decide
  have plain : ∀ tag ∈ entryTags, tag ∉ relyingTags := by decide
  by_cases isEntry : tag ∈ entryTags
  · refine .inr ⟨_, _, if_pos isEntry, if_pos ((entry_tag_iff tag).1 isEntry), fun call sound => ?_,
      .inl ⟨isEntry, rfl⟩⟩
    exact (entry_fulfils sound tag).obeys (plain tag isEntry)
  · have formOf : form? tag = forms.lookup tag := if_neg isEntry
    have ruleOf : rule? tag = rules.lookup tag := if_neg (mt (entry_tag_iff tag).2 isEntry)
    rw [formOf, ruleOf]
    rcases lookup_obeying rules_obey tag with unknown | ⟨form, rule, hasForm, hasRule, obeying⟩
    · exact .inl unknown
    · obtain ⟨before, after, split, _⟩ := List.lookup_eq_some_iff.1 hasForm
      exact .inr ⟨form, rule, hasForm, hasRule, obeying.2,
        .inr (results (tag, form) (by simp [split]))⟩

/-- How reading fails because of a list that is not well-formed. -/
def Fails {α : Type} (source : Source) (list : LocatedTerm) (outcome : Outcome α) : Prop :=
  if list.lacksLast then outcome = .error (.abort .missing)
  else ∃ part ∈ list.parts, ∃ complaint, outcome = complain source part complaint

/-- An outcome is good if all lists are well-formed, and otherwise fails because of the first that
is not. -/
def Judged {α : Type} (source : Source) (lists : List LocatedTerm) (outcome : Outcome α)
    (made : α → Prop) : Prop :=
  match lists.find? fun list => !list.wellFormed with
  | none => ∃ value, outcome = .ok value ∧ made value
  | some list => Fails source list outcome

section Terms

variable {α β : Type} {source : Source} {lists further : List LocatedTerm} {list : LocatedTerm}
  {outcome : Outcome α} {made : α → Prop} {better : β → Prop}

theorem Fails.bind {next : α → Outcome β} (fails : Fails source list outcome) :
    Fails source list (outcome >>= next) := by
  unfold Fails at fails ⊢
  split_ifs at fails ⊢
  · rw [fails]
    rfl
  · obtain ⟨part, inside, complaint, rfl⟩ := fails
    exact ⟨part, inside, complaint, rfl⟩

theorem judged_pure {value : α} (isMade : made value) : Judged source [] (pure value) made :=
  ⟨value, rfl, isMade⟩

/-- Lists of a later step count only if those of the earlier are well-formed. -/
theorem Judged.bind {next : α → Outcome β} (judged : Judged source lists outcome made)
    (then_ : ∀ value, made value → Judged source further (next value) better) :
    Judged source (lists ++ further) (outcome >>= next) better := by
  unfold Judged at judged
  rw [Judged, List.find?_append]
  cases found : lists.find? fun list => !list.wellFormed with
  | some list =>
      rw [found] at judged
      exact judged.bind
  | none =>
      rw [found] at judged
      obtain ⟨value, rfl, isMade⟩ := judged
      exact then_ value isMade

theorem Judged.mono {other : α → Prop} (judged : Judged source lists outcome made)
    (implies : ∀ value, outcome = .ok value → made value → other value) :
    Judged source lists outcome other := by
  unfold Judged at judged ⊢
  split at judged
  · obtain ⟨value, same, isMade⟩ := judged
    exact ⟨value, same, implies value same isMade⟩
  · exact judged

theorem judged_made {value : α} (well : list.wellFormed = true) (isMade : made value) :
    Judged source [list] (.ok value) made := by
  simpa [Judged, well] using isMade

theorem judged_failed (ill : list.wellFormed = false) (fails : Fails source list outcome) :
    Judged source [list] outcome made := by
  simpa [Judged, ill] using fails

theorem judged_formless {complaint : String} (formless : list.form? = none) :
    Judged source [list] (complain source list complaint) made := by
  refine judged_failed (by simp [LocatedTerm.wellFormed, formless]) ?_
  rw [Fails, if_neg (by simp [LocatedTerm.lacksLast, formless])]
  exact ⟨list, list.mem_own_parts, complaint, rfl⟩

theorem Call.Obeys.judged {call : Call} {tag : String} {form : Form} {outcome : Outcome Fragment}
    (obeys : call.Obeys tag form outcome) (hasTag : call.list.tag? = some tag)
    (hasForm : form? tag = some form) (sameTerms : call.list.arguments = call.terms) :
    Judged call.source [call.list] outcome fun value => value.kind = form.result := by
  have wellIff : call.list.wellFormed = form.shape.admits call.terms := by
    simp [LocatedTerm.wellFormed, LocatedTerm.form?, hasTag, hasForm, sameTerms]
  have lacksIff : call.list.lacksLast = true ↔
      tag ∈ relyingTags ∧ form.shape.lacksLast call.terms = true := by
    simp [LocatedTerm.lacksLast, LocatedTerm.form?, hasTag, hasForm, sameTerms]
  cases admitted : form.shape.admits call.terms with
  | true =>
      obtain ⟨value, rfl, sameKind⟩ := obeys.passes admitted
      exact judged_made (wellIff.trans admitted) sameKind
  | false =>
      refine judged_failed (wellIff.trans admitted) ?_
      unfold Fails
      split_ifs with lacks
      · exact obeys.aborts (lacksIff.1 lacks).1 (lacksIff.1 lacks).2
      · exact obeys.complains (by simp [admitted]) fun both => lacks (lacksIff.2 both)

theorem sound_of_shown (span : Span) {head : Argument} {arguments : List Argument}
    (each : ∀ argument ∈ arguments, Shows argument.term argument.value) :
    Call.Sound ⟨source, .list span ((head :: arguments).map (·.term)), arguments⟩ := by
  refine fun argument member => ⟨fun part isPart => ?_, each argument member⟩
  rw [LocatedTerm.parts, List.mem_cons, LocatedTerm.mem_parts_all]
  exact .inr ⟨argument.term, List.mem_map_of_mem (List.mem_cons_of_mem _ member), isPart⟩

theorem entry_shown (span : Span) {head : Argument} {arguments : List Argument} {tag : String}
    {value : Fragment} (isEntry : tag ∈ entryTags)
    (each : ∀ argument ∈ head :: arguments, Shows argument.term argument.value)
    (isTag : head.value = .symbol tag)
    (made : Rule.entry tag ⟨source, .list span ((head :: arguments).map (·.term)), arguments⟩ =
      .ok value) :
    Shows (.list span ((head :: arguments).map (·.term))) value := by
  obtain ⟨headShown, argumentsShown⟩ := List.forall_mem_cons.1 each
  obtain ⟨headTerm, headValue⟩ := head
  subst isTag
  unfold Rule.entry at made
  split at made
  · rename_i argument same
    cases made
    cases same
    cases headShown with
    | symbol tagSpan => exact .entry span tagSpan isEntry (argumentsShown argument (by simp))
    | list _ _ made => simp [Fragment.kind] at made
  · cases made

theorem read_list_judged (span : Span) {given : List Argument}
    (each : ∀ argument ∈ given, Shows argument.term argument.value) :
    Judged source [.list span (given.map (·.term))]
      (readList source (.list span (given.map (·.term))) given)
      (Shows (.list span (given.map (·.term)))) := by
  cases given with
  | nil => exact judged_formless rfl
  | cons head arguments =>
      obtain ⟨headShown, argumentsShown⟩ := List.forall_mem_cons.1 each
      have tagOf : (LocatedTerm.list span ((head :: arguments).map (·.term))).tag? =
          head.value.symbol? := headShown.name
      unfold readList
      dsimp only
      cases symbol : head.value.symbol? with
      | none =>
          split
          · rename_i tag isSymbol
            rw [isSymbol] at symbol
            cases symbol
          · exact judged_formless (by rw [LocatedTerm.form?, tagOf, symbol, Option.bind_none])
      | some tag =>
          rw [symbol] at tagOf
          rw [(Fragment.symbol_iff _ tag).1 symbol]
          dsimp only
          rcases tag_cases tag with ⟨noForm, noRule⟩ | ⟨form, rule, hasForm, hasRule, obeys, sort⟩
          · rw [noRule]
            exact judged_formless (by rw [LocatedTerm.form?, tagOf, Option.bind_some, noForm])
          · rw [hasRule]
            refine ((obeys _ (sound_of_shown span argumentsShown)).judged tagOf hasForm rfl).mono
              fun value made sameKind => ?_
            rcases sort with ⟨isEntry, rfl⟩ | notEntry
            · exact entry_shown span isEntry each ((Fragment.symbol_iff _ tag).1 symbol) made
            · refine .list span _ (sameKind ▸ notEntry) ?_
              rw [LocatedTerm.kind?, LocatedTerm.form?, tagOf, Option.bind_some, hasForm, sameKind]
              rfl

theorem read_terms_judged {elements : List LocatedTerm}
    (each : ∀ element ∈ elements,
      Judged source element.lists (readTerm source element) (Shows element)) :
    Judged source (LocatedTerm.listsAll elements) (readTerms source elements) fun arguments =>
      arguments.map (·.term) = elements ∧
        ∀ argument ∈ arguments, Shows argument.term argument.value := by
  induction elements with
  | nil => exact judged_pure ⟨rfl, by simp⟩
  | cons element rest ih =>
      obtain ⟨first, others⟩ := List.forall_mem_cons.1 each
      refine first.bind fun value shown => ?_
      rw [← List.append_nil (LocatedTerm.listsAll rest)]
      refine (ih others).bind fun arguments ⟨sameTerms, argumentsShown⟩ => judged_pure ⟨?_, ?_⟩
      · rw [List.map_cons, sameTerms]
      · exact List.forall_mem_cons.2 ⟨shown, argumentsShown⟩

/-- Reading is decided by the first list that is not well-formed. -/
theorem read_judged (source : Source) (term : LocatedTerm) :
    Judged source term.lists (readTerm source term) (Shows term) := by
  induction term using LocatedTerm.parts_induction with
  | symbol span name => exact judged_pure (.symbol span name)
  | list span elements ih =>
      refine (read_terms_judged ih).bind fun arguments ⟨sameTerms, shown⟩ => ?_
      subst sameTerms
      exact read_list_judged span shown
  | array span elements ih =>
      rw [LocatedTerm.lists, ← List.append_nil (LocatedTerm.listsAll elements)]
      refine (read_terms_judged ih).bind fun arguments ⟨sameTerms, shown⟩ => ?_
      subst sameTerms
      exact judged_pure (.array span shown)

end Terms

/-- A text that holds a term is read if all lists of the term are well-formed. Otherwise the first
list that is not decides how reading fails: it aborts exactly when this list has one of the tags that
rely on the last argument and only this argument is wrong, and in every other case it complains about
the list or a term inside it. -/
theorem read_decided {source : Source} {term : LocatedTerm}
    (parsed : LocatedTerm.parse source = .ok (some term)) :
    (term.firstIllFormed? = none →
      ∃ fragment, Tagged.read source = .ok fragment ∧ term.kind? = some fragment.kind) ∧
    ∀ list, term.firstIllFormed? = some list →
      ((∃ cause, Tagged.read source = .error (.abort cause)) ↔ list.lacksLast = true) ∧
      (list.lacksLast = false → ∃ part ∈ list.parts, ∃ complaint,
        Tagged.read source = .error (.misread ⟨source, part.span, complaint⟩)) := by
  have judged := read_judged source term
  have sameRead : Tagged.read source = readTerm source term := by rw [Tagged.read, parsed]
  rw [← sameRead, Judged] at judged
  refine ⟨fun allWell => ?_, fun list first => ?_⟩
  · rw [LocatedTerm.firstIllFormed?] at allWell
    rw [allWell] at judged
    obtain ⟨fragment, read, shown⟩ := judged
    exact ⟨fragment, read, shown.kind⟩
  · rw [LocatedTerm.firstIllFormed?] at first
    rw [first] at judged
    dsimp only [Fails] at judged
    cases lacks : list.lacksLast with
    | true =>
        rw [if_pos lacks] at judged
        exact ⟨iff_of_true ⟨.missing, judged⟩ rfl, fun plain => by cases plain⟩
    | false =>
        rw [if_neg (by simp [lacks])] at judged
        obtain ⟨part, inside, complaint, failed⟩ := judged
        refine ⟨iff_of_false ?_ (by simp), fun _ => ⟨part, inside, complaint, failed⟩⟩
        rintro ⟨cause, aborted⟩
        rw [aborted] at failed
        cases failed

/-- Two lists are not well-formed. The inner one comes first, and only its last argument is wrong. -/
def namedPulseAsSequence : String := "(circuit (named_sequence s (pulse)))"

theorem named_pulse_as_sequence_aborts :
    ∃ term, LocatedTerm.parse ⟨"given", namedPulseAsSequence⟩ = .ok (some term) ∧
      term.wellFormed = false ∧ (∃ list, term.firstIllFormed? = some list ∧ list.lacksLast = true) ∧
      ∃ cause, Tagged.read ⟨"given", namedPulseAsSequence⟩ = .error (.abort cause) := by
  have found : (LocatedTerm.parse ⟨"given", namedPulseAsSequence⟩).toOption.join.any (fun term =>
      !term.wellFormed && term.firstIllFormed?.any (·.lacksLast)) = true := by
    decide +kernel
  obtain ⟨term, isTerm, found⟩ := (Option.any_eq_true _ _).1 found
  obtain ⟨outerIll, lacks⟩ := Bool.and_eq_true_iff.1 found
  obtain ⟨list, first, lacks⟩ := (Option.any_eq_true _ _).1 lacks
  have parsed : LocatedTerm.parse ⟨"given", namedPulseAsSequence⟩ = .ok (some term) := by
    cases outcome : LocatedTerm.parse ⟨"given", namedPulseAsSequence⟩ with
    | ok parsed =>
        rw [outcome] at isTerm
        exact congrArg Except.ok (Option.join_eq_some_iff.1 isTerm |> Option.some.inj)
    | error complaint => rw [outcome] at isTerm; cases isTerm
  exact ⟨term, parsed, by simpa using outerIll, ⟨list, first, lacks⟩,
    ((read_decided parsed).2 list first).1.2 lacks⟩

end Analog.Tagged
