import Analog.Proofs.Durations
import Analog.Proofs.PlacedLocations
import Analog.Proofs.SequenceParts
import Analog.Task

/-!
# Assigned programs

Binding a routine gives a value to every variable that it uses. The circuit that comes out
has no record and no variable left, in no scalar of a waveform, a modulation or a slice, and
the minima and maxima in it are as their constructors leave them. Such scalars are fixed:
they have the same value whatever the bindings are.
-/

set_option autoImplicit false

namespace Analog

namespace NameMap

variable {α : Type}

theorem lookup_place (name other : String) (value : α) (entries : List (String × α)) :
    (place name value entries).lookup other =
      if other = name then some value else entries.lookup other := by
  have headed : ∀ rest : List (String × α), ((name, value) :: rest).lookup other =
      if other = name then some value else rest.lookup other := by
    intro rest
    by_cases same : other = name
    · simp [same]
    · have different : (other == name) = false := by simpa using same
      rw [List.lookup_cons, different, if_neg same]
  induction entries with
  | nil => exact headed []
  | cons entry rest ih =>
      obtain ⟨key, old⟩ := entry
      unfold place
      by_cases replaced : name = key
      · rw [if_pos replaced, headed, List.lookup_cons]
        by_cases same : other = name
        · rw [if_pos same, if_pos same]
        · have different : (other == key) = false := by simpa [← replaced] using same
          rw [if_neg same, if_neg same, different]
      · rw [if_neg replaced]
        by_cases before : name < key
        · rw [if_pos before, headed]
        · rw [if_neg before, List.lookup_cons, List.lookup_cons, ih]
          by_cases same : other = name
          · have different : (other == key) = false := by simpa [same] using replaced
            rw [different, if_pos same]
          · rw [if_neg same, if_neg same]

theorem find_insert (map : NameMap α) (name other : String) (value : α) :
    (map.insert name value).find? other = if other = name then some value else map.find? other :=
  lookup_place name other value map.entries

end NameMap

namespace Variables

/-- A property of variables that the parts of a program have exactly when the whole has it. -/
structure Splits (nothing : Variables → Prop) : Prop where
  empty : nothing {}
  append : ∀ first second, nothing (first ++ second) ↔ nothing first ∧ nothing second

theorem scalars_splits : Splits (·.scalars = []) :=
  ⟨rfl, fun _ _ => List.append_eq_nil_iff⟩

theorem recorded_splits : Splits (·.recorded = []) :=
  ⟨rfl, fun _ _ => List.append_eq_nil_iff⟩

theorem vectors_splits : Splits (·.vectors = []) :=
  ⟨rfl, fun _ _ => List.append_eq_nil_iff⟩

theorem Splits.join_iff {nothing : Variables → Prop} (splits : Splits nothing)
    (parts : List Variables) : nothing (join parts) ↔ ∀ part ∈ parts, nothing part := by
  induction parts with
  | nil => simpa [join] using splits.empty
  | cons part rest ih =>
      rw [List.forall_mem_cons, ← ih, ← splits.append]
      rfl

theorem mem_distinct_names (names : List String) {name : String} (member : name ∈ names) :
    name ∈ distinctNames names := by
  induction names using List.reverseRecOn with
  | nil => exact absurd member List.not_mem_nil
  | append_singleton before last ih =>
      unfold distinctNames at ih ⊢
      rw [List.foldl_append]
      simp only [List.foldl_cons, List.foldl_nil]
      rcases List.mem_append.1 member with earlier | final
      · split_ifs
        · exact ih earlier
        · exact List.mem_append.2 (Or.inl (ih earlier))
      · rw [List.mem_singleton.1 final]
        split_ifs with seen
        · exact List.contains_iff_mem.1 seen
        · simp

theorem scalars_of_check {used : Variables} (recorded : used.recorded = [])
    (checked : used.distinct.check = .ok ()) : used.scalars = [] := by
  unfold check at checked
  split_ifs at checked with none
  rw [Bool.and_eq_true, List.isEmpty_iff] at none
  have free : used.distinct.free = distinctNames used.scalars := by
    unfold free distinct
    dsimp only
    rw [recorded]
    simp [distinctNames]
  rw [List.eq_nil_iff_forall_not_mem]
  intro name member
  have kept := mem_distinct_names _ member
  rw [← free, none.1] at kept
  exact absurd kept List.not_mem_nil

theorem vectors_of_check {used : Variables} (checked : used.distinct.check = .ok ()) :
    used.vectors = [] := by
  unfold check at checked
  split_ifs at checked with none
  rw [Bool.and_eq_true, List.isEmpty_iff, List.isEmpty_iff] at none
  rw [List.eq_nil_iff_forall_not_mem]
  intro name member
  have kept := mem_distinct_names _ member
  change name ∈ used.distinct.vectors at kept
  rw [none.2] at kept
  exact absurd kept List.not_mem_nil

end Variables

open Variables

namespace Scalar

/-- A tidy scalar without variables. -/
structure Fixed (scalar : Scalar) : Prop where
  tidied : scalar.tidy = true
  closed : scalar.uses.scalars = []

theorem uses_all_iff {nothing : Variables → Prop} (splits : Splits nothing)
    (operands : List Scalar) :
    nothing (usesAll operands) ↔ ∀ operand ∈ operands, nothing operand.uses := by
  induction operands with
  | nil => simpa [usesAll] using splits.empty
  | cons operand rest ih => rw [usesAll, splits.append, ih, List.forall_mem_cons]

theorem uses_bound_iff {nothing : Variables → Prop} (splits : Splits nothing)
    (bound : Option Scalar) :
    nothing (usesBound bound) ↔ ∀ given ∈ bound, nothing given.uses := by
  cases bound with
  | none => simpa [usesBound] using splits.empty
  | some given => simp [usesBound]

@[simp] theorem fixed_literal (value : Decimal) : (literal value).Fixed := ⟨rfl, rfl⟩

@[simp] theorem fixed_assigned (name : String) (value : Decimal) : (assigned name value).Fixed :=
  ⟨rfl, rfl⟩

theorem not_fixed_variable (name : String) : ¬(Scalar.variable name).Fixed :=
  fun fixed => absurd fixed.closed (by simp [uses])

theorem fixed_negative_iff (operand : Scalar) : (negative operand).Fixed ↔ operand.Fixed :=
  ⟨fun fixed => ⟨fixed.tidied, fixed.closed⟩, fun fixed => ⟨fixed.tidied, fixed.closed⟩⟩

theorem fixed_pair_iff {whole left right : Scalar} (tidied : whole.tidy = (left.tidy && right.tidy))
    (used : whole.uses = left.uses ++ right.uses) :
    whole.Fixed ↔ left.Fixed ∧ right.Fixed := by
  constructor
  · rintro ⟨wholeTidy, wholeClosed⟩
    rw [tidied, Bool.and_eq_true] at wholeTidy
    rw [used] at wholeClosed
    obtain ⟨leftClosed, rightClosed⟩ := (scalars_splits.append _ _).1 wholeClosed
    exact ⟨⟨wholeTidy.1, leftClosed⟩, wholeTidy.2, rightClosed⟩
  · rintro ⟨leftFixed, rightFixed⟩
    refine ⟨by rw [tidied, leftFixed.tidied, rightFixed.tidied]; rfl, ?_⟩
    rw [used]
    exact (scalars_splits.append _ _).2 ⟨leftFixed.closed, rightFixed.closed⟩

theorem fixed_add_iff (left right : Scalar) : (add left right).Fixed ↔ left.Fixed ∧ right.Fixed :=
  fixed_pair_iff rfl rfl

theorem fixed_mul_iff (left right : Scalar) : (mul left right).Fixed ↔ left.Fixed ∧ right.Fixed :=
  fixed_pair_iff rfl rfl

theorem fixed_div_iff (left right : Scalar) : (div left right).Fixed ↔ left.Fixed ∧ right.Fixed :=
  fixed_pair_iff rfl rfl

theorem fixed_choice_iff {whole : Scalar} {operands : List Scalar}
    (tidied : whole.tidy = (distinct operands && tidyAll operands))
    (used : whole.uses = usesAll operands) :
    whole.Fixed ↔ distinct operands = true ∧ ∀ operand ∈ operands, operand.Fixed := by
  constructor
  · rintro ⟨wholeTidy, wholeClosed⟩
    rw [tidied, Bool.and_eq_true, tidy_all_iff] at wholeTidy
    rw [used, uses_all_iff scalars_splits] at wholeClosed
    exact ⟨wholeTidy.1, fun operand member =>
      ⟨wholeTidy.2 operand member, wholeClosed operand member⟩⟩
  · rintro ⟨different, each⟩
    constructor
    · rw [tidied, different, (tidy_all_iff _).2 fun operand member => (each operand member).tidied]
      rfl
    · rw [used]
      exact (uses_all_iff scalars_splits _).2 fun operand member => (each operand member).closed

theorem fixed_min_iff (operands : List Scalar) :
    (min operands).Fixed ↔ distinct operands = true ∧ ∀ operand ∈ operands, operand.Fixed :=
  fixed_choice_iff rfl rfl

theorem fixed_max_iff (operands : List Scalar) :
    (max operands).Fixed ↔ distinct operands = true ∧ ∀ operand ∈ operands, operand.Fixed :=
  fixed_choice_iff rfl rfl

theorem fixed_slice_iff (extent : Scalar) (start stop : Option Scalar) :
    (slice extent start stop).Fixed ↔
      extent.Fixed ∧ (∀ bound ∈ start, bound.Fixed) ∧ ∀ bound ∈ stop, bound.Fixed := by
  have used : (slice extent start stop).uses.scalars = [] ↔
      extent.uses.scalars = [] ∧ (∀ bound ∈ start, bound.uses.scalars = []) ∧
        ∀ bound ∈ stop, bound.uses.scalars = [] := by
    rw [uses, scalars_splits.append, scalars_splits.append, uses_bound_iff scalars_splits,
      uses_bound_iff scalars_splits, and_assoc]
  constructor
  · rintro ⟨tidied, closed⟩
    rw [tidy, Bool.and_eq_true, Bool.and_eq_true, tidy_bound_iff, tidy_bound_iff] at tidied
    obtain ⟨extentClosed, startClosed, stopClosed⟩ := used.1 closed
    exact ⟨⟨tidied.1.1, extentClosed⟩,
      fun bound member => ⟨tidied.1.2 bound member, startClosed bound member⟩,
      fun bound member => ⟨tidied.2 bound member, stopClosed bound member⟩⟩
  · rintro ⟨extentFixed, startFixed, stopFixed⟩
    refine ⟨?_, used.2 ⟨extentFixed.closed, fun bound member => (startFixed bound member).closed,
      fun bound member => (stopFixed bound member).closed⟩⟩
    rw [tidy, extentFixed.tidied, (tidy_bound_iff _).2 fun bound member =>
      (startFixed bound member).tidied, (tidy_bound_iff _).2 fun bound member =>
      (stopFixed bound member).tidied]
    rfl

theorem maximum_fixed {operands : List Scalar} (each : ∀ operand ∈ operands, operand.Fixed) :
    (maximum operands).Fixed :=
  (fixed_max_iff _).2 ⟨unique_distinct operands, fun operand member =>
    each operand (mem_of_mem_unique member)⟩

theorem uses_recorded (scalar : Scalar) : scalar.uses.recorded = [] := by
  induction scalar using Scalar.parts_induction with
  | literal value => rfl
  | named name => rfl
  | assigned name value => rfl
  | negative operand ih => exact ih
  | add left right leftIh rightIh => exact (recorded_splits.append _ _).2 ⟨leftIh, rightIh⟩
  | mul left right leftIh rightIh => exact (recorded_splits.append _ _).2 ⟨leftIh, rightIh⟩
  | div left right leftIh rightIh => exact (recorded_splits.append _ _).2 ⟨leftIh, rightIh⟩
  | min operands ih => exact (uses_all_iff recorded_splits operands).2 ih
  | max operands ih => exact (uses_all_iff recorded_splits operands).2 ih
  | slice extent start stop extentIh startIh stopIh =>
      rw [uses, recorded_splits.append, recorded_splits.append, uses_bound_iff recorded_splits,
        uses_bound_iff recorded_splits]
      exact ⟨⟨extentIh, startIh⟩, stopIh⟩

variable {bindings : ScalarBindings}

theorem assign_all_ok_iff (operands results : List Scalar) :
    assignAll bindings operands = .ok results ↔
      List.Forall₂ (fun operand result => operand.assign bindings = .ok result) operands results := by
  have asMap : assignAll bindings operands = operands.mapM (assign bindings) := by
    induction operands with
    | nil => rfl
    | cons operand rest ih => rw [assignAll, List.mapM_cons, ih]
  rw [asMap, Outcome.mapM_ok_iff]

theorem assign_bound_tidy {bound result : Option Scalar}
    (each : ∀ given ∈ bound, ∀ made, given.assign bindings = .ok made → made.tidy = true)
    (assigned : assignBound bindings bound = .ok result) : tidyBound result = true := by
  cases bound with
  | none =>
      rw [assignBound, Except.ok.injEq] at assigned
      subst assigned
      rfl
  | some given =>
      rw [assignBound, Outcome.bind_ok_iff] at assigned
      obtain ⟨made, madeOk, same⟩ := assigned
      rw [Outcome.pure_ok_iff] at same
      subst same
      exact each given rfl made madeOk

/-- What comes out of an assignment is tidy: minima and maxima are built anew. -/
theorem assign_tidy (scalar result : Scalar) (assigned : scalar.assign bindings = .ok result) :
    result.tidy = true := by
  induction scalar using Scalar.parts_induction generalizing result with
  | literal value =>
      rw [assign, Except.ok.injEq] at assigned
      subst assigned
      rfl
  | named name =>
      unfold assign at assigned
      split at assigned <;> cases assigned <;> rfl
  | assigned name value =>
      unfold assign at assigned
      split at assigned <;> cases assigned
      rfl
  | negative operand ih =>
      rw [assign, Outcome.bind_ok_iff] at assigned
      obtain ⟨operand', operandOk, same⟩ := assigned
      cases same
      exact ih operand' operandOk
  | add left right leftIh rightIh
  | mul left right leftIh rightIh
  | div left right leftIh rightIh =>
      simp only [assign, Outcome.bind_ok_iff, Outcome.pure_ok_iff] at assigned
      obtain ⟨left', leftOk, right', rightOk, rfl⟩ := assigned
      rw [tidy, leftIh left' leftOk, rightIh right' rightOk]
      rfl
  | min operands ih =>
      simp only [assign, Outcome.bind_ok_iff, Outcome.pure_ok_iff, assign_all_ok_iff] at assigned
      obtain ⟨operands', each, rfl⟩ := assigned
      apply minimum_tidy
      intro operand' member
      obtain ⟨operand, operandMember, operandOk⟩ := Outcome.source_of_mem each member
      exact ih operand operandMember operand' operandOk
  | max operands ih =>
      simp only [assign, Outcome.bind_ok_iff, Outcome.pure_ok_iff, assign_all_ok_iff] at assigned
      obtain ⟨operands', each, rfl⟩ := assigned
      apply maximum_tidy
      intro operand' member
      obtain ⟨operand, operandMember, operandOk⟩ := Outcome.source_of_mem each member
      exact ih operand operandMember operand' operandOk
  | slice extent start stop extentIh startIh stopIh =>
      simp only [assign, Outcome.bind_ok_iff, Outcome.pure_ok_iff] at assigned
      obtain ⟨extent', extentOk, start', startOk, stop', stopOk, rfl⟩ := assigned
      rw [tidy, extentIh extent' extentOk, assign_bound_tidy startIh startOk,
        assign_bound_tidy stopIh stopOk]
      rfl

theorem assign_all_tidy {operands results : List Scalar}
    (assigned : assignAll bindings operands = .ok results) :
    ∀ result ∈ results, result.tidy = true := by
  intro result member
  obtain ⟨operand, _, operandOk⟩ :=
    Outcome.source_of_mem ((assign_all_ok_iff operands results).1 assigned) member
  exact assign_tidy operand result operandOk

end Scalar

/-- A family of tidy scalars that has the durations made of its members in it. -/
structure Scalar.Family (good : Scalar → Prop) : Prop where
  tidied : ∀ scalar, good scalar → scalar.tidy = true
  literal : ∀ value, good (.literal value)
  add : ∀ left right, good left → good right → good (.add left right)
  maximum : ∀ operands, (∀ operand ∈ operands, good operand) → good (Scalar.maximum operands)
  slice : ∀ extent start stop, good extent → (∀ bound ∈ start, good bound) →
    (∀ bound ∈ stop, good bound) → good (.slice extent start stop)

theorem Scalar.tidy_family : Family (·.tidy) := by
  refine ⟨fun _ tidied => tidied, fun _ => rfl, fun left right leftTidy rightTidy => ?_,
    fun _ => maximum_tidy, fun extent start stop extentTidy startTidy stopTidy => ?_⟩
  · rw [tidy, leftTidy, rightTidy]
    rfl
  · rw [tidy, extentTidy, (tidy_bound_iff _).2 startTidy, (tidy_bound_iff _).2 stopTidy]
    rfl

theorem Scalar.fixed_family : Family Scalar.Fixed :=
  ⟨fun _ fixed => fixed.tidied, fixed_literal,
    fun _ _ leftFixed rightFixed => (fixed_add_iff _ _).2 ⟨leftFixed, rightFixed⟩,
    fun _ => maximum_fixed,
    fun _ _ _ extentFixed startFixed stopFixed =>
      (fixed_slice_iff _ _ _).2 ⟨extentFixed, startFixed, stopFixed⟩⟩

namespace Interval

def Each (good : Scalar → Prop) (interval : Interval) : Prop :=
  ∀ bound ∈ interval.bounds, good bound

abbrev Fixed (interval : Interval) : Prop :=
  interval.Each Scalar.Fixed

theorem each_iff {good : Scalar → Prop} (interval : Interval) :
    interval.Each good ↔
      (∀ bound ∈ interval.start, good bound) ∧ ∀ bound ∈ interval.stop, good bound := by
  simp [Each, bounds, or_imp, forall_and]

theorem uses_iff {nothing : Variables → Prop} (splits : Splits nothing) (interval : Interval) :
    nothing interval.uses ↔ ∀ bound ∈ interval.bounds, nothing bound.uses := by
  rw [uses, splits.append, Scalar.uses_bound_iff splits, Scalar.uses_bound_iff splits]
  simp [bounds, or_imp, forall_and]

theorem assign_tidy {bindings : ScalarBindings} {interval result : Interval}
    (assigned : interval.assign bindings = .ok result) :
    ∀ bound ∈ result.bounds, bound.tidy = true := by
  simp only [assign, Outcome.bind_ok_iff, Outcome.pure_ok_iff] at assigned
  obtain ⟨start, startOk, stop, stopOk, rfl⟩ := assigned
  have startTidy := Scalar.assign_bound_tidy (fun given _ => Scalar.assign_tidy given) startOk
  have stopTidy := Scalar.assign_bound_tidy (fun given _ => Scalar.assign_tidy given) stopOk
  rw [Scalar.tidy_bound_iff] at startTidy stopTidy
  simpa [bounds, or_imp, forall_and] using ⟨startTidy, stopTidy⟩

end Interval

namespace Waveform

abbrev Fixed (waveform : Waveform) : Prop :=
  waveform.Each Scalar.Fixed

def Resolved (waveform : Waveform) : Prop :=
  ∀ node ∈ waveform.nodes, node.introduced.recorded = [] ∧
    ∀ scalar ∈ node.scalars, scalar.tidy = true

theorem fixed_iff (waveform : Waveform) :
    waveform.Fixed ↔
      (∀ scalar ∈ waveform.scalars, scalar.Fixed) ∧ ∀ child ∈ waveform.children, child.Fixed :=
  each_node_iff _ waveform

theorem resolved_iff (waveform : Waveform) :
    waveform.Resolved ↔
      (waveform.introduced.recorded = [] ∧ ∀ scalar ∈ waveform.scalars, scalar.tidy = true) ∧
        ∀ child ∈ waveform.children, child.Resolved :=
  each_node_iff _ waveform

theorem Fixed.tidied {waveform : Waveform} (fixed : waveform.Fixed) :
    ∀ node ∈ waveform.nodes, ∀ scalar ∈ node.scalars, scalar.tidy = true :=
  fun node nodeMember scalar member => (fixed node nodeMember scalar member).tidied

theorem uses_iff {nothing : Variables → Prop} (splits : Splits nothing) (waveform : Waveform) :
    nothing waveform.uses ↔ ∀ node ∈ waveform.nodes, nothing node.introduced ∧
      ∀ scalar ∈ node.scalars, nothing scalar.uses := by
  rw [uses, splits.join_iff, List.forall_mem_map]
  simp only [splits.append, Scalar.uses_all_iff splits]

theorem Resolved.recorded {waveform : Waveform} (resolved : waveform.Resolved) :
    waveform.uses.recorded = [] :=
  (uses_iff recorded_splits waveform).2 fun node member =>
    ⟨(resolved node member).1, fun scalar _ => scalar.uses_recorded⟩

theorem Resolved.fixed {waveform : Waveform} (resolved : waveform.Resolved)
    (closed : waveform.uses.scalars = []) : waveform.Fixed := fun node member scalar found =>
  ⟨(resolved node member).2 scalar found,
    ((uses_iff scalars_splits waveform).1 closed node member).2 scalar found⟩

variable {bindings : ScalarBindings}

theorem assign_all_ok_iff (parts results : List Waveform) :
    assignAll bindings parts = .ok results ↔
      List.Forall₂ (fun part result => part.assign bindings = .ok result) parts results := by
  have asMap : assignAll bindings parts = parts.mapM (assign bindings) := by
    induction parts with
    | nil => rfl
    | cons part rest ih => rw [assignAll, List.mapM_cons, ih]
  rw [asMap, Outcome.mapM_ok_iff]

theorem mem_records_all (parts : List Waveform) (record : Record) :
    record ∈ recordsAll parts ↔ ∃ part ∈ parts, record ∈ part.records := by
  induction parts with
  | nil => simp [recordsAll]
  | cons part rest ih => simp [recordsAll, ih]

theorem fill_tidy {fill result : FillValue} (assigned : fill.assign bindings = .ok result) :
    ∀ scalar ∈ result.scalars, scalar.tidy = true := by
  cases fill with
  | explicit value =>
      simp only [FillValue.assign, Outcome.bind_ok_iff, Outcome.pure_ok_iff] at assigned
      obtain ⟨value', valueOk, rfl⟩ := assigned
      simpa [FillValue.scalars] using Scalar.assign_tidy value value' valueOk
  | boundary side =>
      rw [FillValue.assign, Except.ok.injEq] at assigned
      subst assigned
      simp [FillValue.scalars]

theorem assign_resolved (waveform result : Waveform)
    (bound : ∀ record ∈ waveform.records, bindings.contains record.name = true)
    (assigned : waveform.assign bindings = .ok result) : result.Resolved := by
  induction waveform using Waveform.parts_induction generalizing result with
  | constant value duration =>
      simp only [assign, Outcome.bind_ok_iff, Outcome.pure_ok_iff] at assigned
      obtain ⟨value', valueOk, duration', durationOk, rfl⟩ := assigned
      rw [resolved_iff]
      simpa [scalars, children, introduced] using
        ⟨Scalar.assign_tidy _ _ valueOk, Scalar.assign_tidy _ _ durationOk⟩
  | ramp start stop duration =>
      simp only [assign, Outcome.bind_ok_iff, Outcome.pure_ok_iff] at assigned
      obtain ⟨start', startOk, stop', stopOk, duration', durationOk, rfl⟩ := assigned
      rw [resolved_iff]
      simpa [scalars, children, introduced] using ⟨Scalar.assign_tidy _ _ startOk,
        Scalar.assign_tidy _ _ stopOk, Scalar.assign_tidy _ _ durationOk⟩
  | poly coefficients duration =>
      simp only [assign, Outcome.bind_ok_iff, Outcome.pure_ok_iff] at assigned
      obtain ⟨coefficients', coefficientsOk, duration', durationOk, rfl⟩ := assigned
      have tidied := Scalar.assign_all_tidy coefficientsOk
      have durationTidy := Scalar.assign_tidy _ _ durationOk
      rw [resolved_iff]
      simp only [scalars, children, introduced]
      grind
  | native name function duration parameters =>
      simp only [assign, Outcome.bind_ok_iff, Outcome.pure_ok_iff] at assigned
      obtain ⟨parameters', parametersOk, duration', durationOk, rfl⟩ := assigned
      have tidied := Scalar.assign_all_tidy parametersOk
      have durationTidy := Scalar.assign_tidy _ _ durationOk
      rw [resolved_iff]
      simp only [scalars, children, introduced]
      grind
  | negative inner ih =>
      simp only [assign, Outcome.bind_ok_iff, Outcome.pure_ok_iff] at assigned
      obtain ⟨inner', innerOk, rfl⟩ := assigned
      rw [resolved_iff]
      simpa [scalars, children, introduced] using ih inner' bound innerOk
  | add left right leftIh rightIh =>
      simp only [assign, Outcome.bind_ok_iff, Outcome.pure_ok_iff] at assigned
      obtain ⟨left', leftOk, right', rightOk, rfl⟩ := assigned
      rw [resolved_iff]
      simpa [scalars, children, introduced] using
        ⟨leftIh left' (fun record member => bound record (by simp [records, member])) leftOk,
          rightIh right' (fun record member => bound record (by simp [records, member])) rightOk⟩
  | scale factor inner ih =>
      simp only [assign, Outcome.bind_ok_iff, Outcome.pure_ok_iff] at assigned
      obtain ⟨inner', innerOk, factor', factorOk, rfl⟩ := assigned
      rw [resolved_iff]
      simpa [scalars, children, introduced] using
        ⟨Scalar.assign_tidy _ _ factorOk, ih inner' bound innerOk⟩
  | slice inner interval ih =>
      simp only [assign, Outcome.bind_ok_iff, Outcome.pure_ok_iff] at assigned
      obtain ⟨inner', innerOk, interval', intervalOk, rfl⟩ := assigned
      rw [resolved_iff]
      exact ⟨⟨rfl, Interval.assign_tidy intervalOk⟩, by
        simpa [children] using ih inner' bound innerOk⟩
  | append parts ih =>
      simp only [assign, Outcome.bind_ok_iff, Outcome.pure_ok_iff, assign_all_ok_iff] at assigned
      obtain ⟨parts', each, rfl⟩ := assigned
      rw [resolved_iff]
      refine ⟨⟨rfl, by simp [scalars]⟩, fun part' member => ?_⟩
      obtain ⟨part, partMember, partOk⟩ := Outcome.source_of_mem each member
      exact ih part partMember part' (fun record found => bound record
        ((mem_records_all parts record).2 ⟨part, partMember, found⟩)) partOk
  | record name inner side ih =>
      rw [assign, Outcome.bind_ok_iff] at assigned
      obtain ⟨inner', innerOk, rest⟩ := assigned
      have nameBound := bound ⟨name, inner, side⟩ (by simp [records])
      rw [if_pos nameBound, Outcome.pure_ok_iff] at rest
      subst rest
      exact ih inner' (fun record member => bound record (by simp [records, member])) innerOk
  | sample inner step interpolation ih =>
      simp only [assign, Outcome.bind_ok_iff, Outcome.pure_ok_iff] at assigned
      obtain ⟨inner', innerOk, step', stepOk, rfl⟩ := assigned
      rw [resolved_iff]
      simpa [scalars, children, introduced] using
        ⟨Scalar.assign_tidy _ _ stepOk, ih inner' bound innerOk⟩
  | smooth inner radius kernel ih =>
      simp only [assign, Outcome.bind_ok_iff, Outcome.pure_ok_iff] at assigned
      obtain ⟨inner', innerOk, radius', radiusOk, rfl⟩ := assigned
      rw [resolved_iff]
      simpa [scalars, children, introduced] using
        ⟨Scalar.assign_tidy _ _ radiusOk, ih inner' bound innerOk⟩
  | aligned inner alignment fill ih =>
      simp only [assign, Outcome.bind_ok_iff, Outcome.pure_ok_iff] at assigned
      obtain ⟨inner', innerOk, fill', fillOk, rfl⟩ := assigned
      rw [resolved_iff]
      exact ⟨⟨rfl, fill_tidy fillOk⟩, by simpa [children] using ih inner' bound innerOk⟩

end Waveform

namespace Modulation

def EachWeight (good : Scalar → Prop) : Modulation → Prop
  | .scaled locations => ∀ location ∈ locations, good location.weight
  | _ => True

theorem EachWeight.mono {good better : Scalar → Prop} {modulation : Modulation}
    (each : modulation.EachWeight good) (weaker : ∀ scalar, good scalar → better scalar) :
    modulation.EachWeight better := by
  cases modulation with
  | scaled locations => exact fun location member => weaker _ (each location member)
  | _ => trivial

theorem of_locations_each {good : Scalar → Prop}
    (summed : ∀ first second, good first → good second → good (.add first second))
    {locations : List Location} (each : ∀ location ∈ locations, good location.weight) :
    (ofLocations locations).EachWeight good :=
  place_all_each (fun first second => summed first.weight second.weight) each

theorem assign_tidy {bindings : Bindings} {modulation result : Modulation}
    (assigned : modulation.assign bindings = .ok result) :
    result.EachWeight fun weight => weight.tidy = true := by
  cases modulation with
  | uniform =>
      rw [assign, Except.ok.injEq] at assigned
      subst assigned
      trivial
  | vector name =>
      rw [assign] at assigned
      split at assigned <;> cases assigned <;> trivial
  | assignedVector name values =>
      rw [assign] at assigned
      split at assigned <;> cases assigned
      trivial
  | scaled locations =>
      rw [assign, Outcome.bind_ok_iff] at assigned
      obtain ⟨locations', locationsOk, made⟩ := assigned
      rw [Outcome.pure_ok_iff] at made
      subst made
      apply of_locations_each
      · intro first second firstTidy secondTidy
        rw [Scalar.tidy, firstTidy, secondTidy]
        rfl
      · induction locations generalizing locations' with
        | nil =>
            rw [assignLocations, Except.ok.injEq] at locationsOk
            simp [← locationsOk]
        | cons location rest ih =>
            simp only [assignLocations, Outcome.bind_ok_iff, Outcome.pure_ok_iff] at locationsOk
            obtain ⟨weight, weightOk, rest', restOk, rfl⟩ := locationsOk
            exact List.forall_mem_cons.2 ⟨Scalar.assign_tidy _ _ weightOk, ih rest' restOk⟩

end Modulation

namespace Drive

structure Each (good : Scalar → Prop) (drive : Drive) : Prop where
  target : drive.target.EachWeight good
  waveform : drive.waveform.Each good

theorem Each.mono {good better : Scalar → Prop} {drive : Drive} (each : drive.Each good)
    (weaker : ∀ scalar, good scalar → better scalar) : drive.Each better :=
  ⟨each.target.mono weaker, each.waveform.mono weaker⟩

abbrev Fixed (drive : Drive) : Prop :=
  drive.Each Scalar.Fixed

/-- A drive without records whose scalars are all tidy. -/
structure Resolved (drive : Drive) : Prop where
  target : drive.target.EachWeight fun weight => weight.tidy = true
  waveform : drive.waveform.Resolved

def uses (drive : Drive) : Variables :=
  drive.target.uses ++ drive.waveform.uses

theorem Resolved.recorded {drive : Drive} (resolved : drive.Resolved) :
    drive.uses.recorded = [] := by
  refine (recorded_splits.append _ _).2 ⟨?_, resolved.waveform.recorded⟩
  cases drive.target with
  | scaled locations =>
      exact (Scalar.uses_all_iff recorded_splits _).2 fun weight _ => weight.uses_recorded
  | _ => rfl

theorem Resolved.fixed {drive : Drive} (resolved : drive.Resolved)
    (closed : drive.uses.scalars = []) : drive.Fixed := by
  obtain ⟨targetClosed, waveformClosed⟩ := (scalars_splits.append _ _).1 closed
  refine ⟨?_, resolved.waveform.fixed waveformClosed⟩
  have tidied := resolved.target
  cases found : drive.target with
  | scaled locations =>
      rw [found] at tidied targetClosed
      have each := (Scalar.uses_all_iff scalars_splits _).1 targetClosed
      exact fun location member => ⟨tidied location member,
        each location.weight (List.mem_map.2 ⟨location, member, rfl⟩)⟩
  | _ => trivial

end Drive

theorem Field.assign_resolved {bindings : Bindings} {field result : Field}
    (bound : ∀ drive ∈ field.drives, ∀ record ∈ drive.waveform.records,
      bindings.scalars.contains record.name = true)
    (assigned : field.assign bindings = .ok result) : ∀ drive ∈ result.drives, drive.Resolved := by
  simp only [assign, Outcome.bind_ok_iff, Outcome.pure_ok_iff, Outcome.mapM_ok_iff] at assigned
  obtain ⟨drives, each, rfl⟩ := assigned
  apply Field.of_drives_each
  · intro first second firstResolved secondResolved _
    refine ⟨firstResolved.target, ?_⟩
    rw [Waveform.resolved_iff]
    simpa [Waveform.scalars, Waveform.children, Waveform.introduced] using
      ⟨firstResolved.waveform, secondResolved.waveform⟩
  · intro drive member
    obtain ⟨given, givenMember, worked⟩ := Outcome.source_of_mem each member
    simp only [Drive.assign, Outcome.bind_ok_iff, Outcome.pure_ok_iff] at worked
    obtain ⟨target, targetOk, waveform, waveformOk, rfl⟩ := worked
    exact ⟨Modulation.assign_tidy targetOk,
      Waveform.assign_resolved _ _ (bound given givenMember) waveformOk⟩

namespace PerField

theorem uses_iff {nothing : Variables → Prop} (splits : Splits nothing)
    (fields : PerField Field) :
    nothing (.join (fields.entries.map (·.2.uses))) ↔
      fields.EachDrive fun drive => nothing drive.uses := by
  rw [splits.join_iff, List.forall_mem_map, Prod.forall]
  simp only [mem_entries_iff, Field.uses, splits.join_iff, List.forall_mem_map]
  rfl

end PerField

namespace Pulse

def EachScalar (good : Scalar → Prop) (pulse : Pulse) : Prop :=
  pulse.Each (PerField.EachDrive (Drive.Each good)) (Interval.Each good)

theorem EachScalar.mono {good better : Scalar → Prop} (pulse : Pulse)
    (each : pulse.EachScalar good) (weaker : ∀ scalar, good scalar → better scalar) :
    pulse.EachScalar better :=
  Each.mono pulse each (fun _ fields => fields.mono fun _ drive => drive.mono weaker)
    fun _ bounds bound member => weaker bound (bounds bound member)

abbrev Fixed (pulse : Pulse) : Prop :=
  pulse.EachScalar Scalar.Fixed

def Resolved (pulse : Pulse) : Prop :=
  pulse.Each (PerField.EachDrive Drive.Resolved) fun interval =>
    ∀ bound ∈ interval.bounds, bound.tidy = true

theorem uses_all_iff {nothing : Variables → Prop} (splits : Splits nothing) (parts : List Pulse) :
    nothing (usesAll parts) ↔ ∀ part ∈ parts, nothing part.uses := by
  induction parts with
  | nil => simpa [usesAll] using splits.empty
  | cons part rest ih => rw [usesAll, splits.append, ih, List.forall_mem_cons]

theorem uses_iff {nothing : Variables → Prop} (splits : Splits nothing) (pulse : Pulse) :
    nothing pulse.uses ↔ pulse.Each (PerField.EachDrive fun drive => nothing drive.uses)
      fun interval => nothing interval.uses := by
  induction pulse using Pulse.parts_induction with
  | plain fields => exact fields.uses_iff splits
  | append parts ih =>
      rw [uses, uses_all_iff splits, each_append_iff]
      exact forall₂_congr ih
  | slice inner interval ih => rw [uses, splits.append, ih, each_slice_iff, and_comm]
  | named name inner ih => exact ih

theorem Resolved.recorded {pulse : Pulse} (resolved : pulse.Resolved) : pulse.uses.recorded = [] :=
  (uses_iff recorded_splits pulse).2 <| resolved.mono pulse
    (fun _ each => each.mono fun _ drive => drive.recorded)
    fun interval _ => (interval.uses_iff recorded_splits).2 fun bound _ => bound.uses_recorded

theorem Resolved.fixed (pulse : Pulse) (resolved : pulse.Resolved)
    (closed : pulse.uses.scalars = []) : pulse.Fixed := by
  rw [uses_iff scalars_splits] at closed
  refine (Each.and pulse resolved closed).mono pulse ?_ ?_
  · rintro fields ⟨fieldsResolved, fieldsClosed⟩ name field found drive member
    exact (fieldsResolved name field found drive member).fixed
      (fieldsClosed name field found drive member)
  · rintro interval ⟨tidied, intervalClosed⟩ bound member
    exact ⟨tidied bound member, (interval.uses_iff scalars_splits).1 intervalClosed bound member⟩

theorem assign_all_ok_iff {bindings : Bindings} (parts results : List Pulse) :
    assignAll bindings parts = .ok results ↔
      List.Forall₂ (fun part result => part.assign bindings = .ok result) parts results := by
  have asMap : assignAll bindings parts = parts.mapM (assign bindings) := by
    induction parts with
    | nil => rfl
    | cons part rest ih => rw [assignAll, List.mapM_cons, ih]
  rw [asMap, Outcome.mapM_ok_iff]

def Recorded (bindings : Bindings) (pulse : Pulse) : Prop :=
  pulse.Each (PerField.EachDrive fun drive => ∀ record ∈ drive.waveform.records,
    bindings.scalars.contains record.name = true) fun _ => True

theorem assign_resolved {bindings : Bindings} (pulse result : Pulse)
    (bound : pulse.Recorded bindings) (assigned : pulse.assign bindings = .ok result) :
    result.Resolved := by
  unfold Recorded at bound
  induction pulse using Pulse.parts_induction generalizing result with
  | plain fields =>
      simp only [assign, Outcome.bind_ok_iff, Outcome.pure_ok_iff] at assigned
      obtain ⟨fields', fieldsOk, rfl⟩ := assigned
      intro name field' found
      have related := PerField.mapM_ok fieldsOk name
      rw [found] at related
      cases given : fields.get? name with
      | none => rw [given] at related; cases related
      | some field =>
          rw [given] at related
          cases related with
          | some fieldOk => exact Field.assign_resolved (bound name field given) fieldOk
  | append parts ih =>
      simp only [assign, Outcome.bind_ok_iff, Outcome.pure_ok_iff, assign_all_ok_iff] at assigned
      obtain ⟨parts', each, rfl⟩ := assigned
      rw [each_append_iff] at bound
      refine (each_append_iff _).2 fun part' member => ?_
      obtain ⟨part, partMember, partOk⟩ := Outcome.source_of_mem each member
      exact ih part partMember part' (bound part partMember) partOk
  | slice inner interval ih =>
      simp only [assign, Outcome.bind_ok_iff, Outcome.pure_ok_iff] at assigned
      obtain ⟨inner', innerOk, interval', intervalOk, rfl⟩ := assigned
      exact ⟨ih inner' bound.1 innerOk, Interval.assign_tidy intervalOk⟩
  | named name inner ih =>
      simp only [assign, Outcome.bind_ok_iff, Outcome.pure_ok_iff] at assigned
      obtain ⟨inner', innerOk, rfl⟩ := assigned
      exact ih inner' bound innerOk

end Pulse

namespace Sequence

def EachScalar (good : Scalar → Prop) (sequence : Sequence) : Prop :=
  sequence.Each (PerCoupling.EachPulse (Pulse.EachScalar good)) (Interval.Each good)

theorem EachScalar.mono {good better : Scalar → Prop} (sequence : Sequence)
    (each : sequence.EachScalar good) (weaker : ∀ scalar, good scalar → better scalar) :
    sequence.EachScalar better :=
  Each.mono sequence each (fun _ pulses coupling pulse found =>
    (pulses coupling pulse found).mono pulse weaker)
    fun _ bounds bound member => weaker bound (bounds bound member)

abbrev Fixed (sequence : Sequence) : Prop :=
  sequence.EachScalar Scalar.Fixed

def Resolved (sequence : Sequence) : Prop :=
  sequence.Each (PerCoupling.EachPulse Pulse.Resolved) fun interval =>
    ∀ bound ∈ interval.bounds, bound.tidy = true

theorem uses_all_iff {nothing : Variables → Prop} (splits : Splits nothing)
    (parts : List Sequence) : nothing (usesAll parts) ↔ ∀ part ∈ parts, nothing part.uses := by
  induction parts with
  | nil => simpa [usesAll] using splits.empty
  | cons part rest ih => rw [usesAll, splits.append, ih, List.forall_mem_cons]

theorem uses_iff {nothing : Variables → Prop} (splits : Splits nothing) (sequence : Sequence) :
    nothing sequence.uses ↔ sequence.Each (PerCoupling.EachPulse fun pulse => nothing pulse.uses)
      fun interval => nothing interval.uses := by
  induction sequence using Sequence.parts_induction with
  | plain pulses =>
      rw [uses, splits.join_iff, List.forall_mem_map, Prod.forall]
      simp only [PerCoupling.mem_entries_iff]
      rfl
  | append parts ih =>
      rw [uses, uses_all_iff splits, each_append_iff]
      exact forall₂_congr ih
  | slice inner interval ih => rw [uses, splits.append, ih, each_slice_iff, and_comm]
  | named name inner ih => exact ih

theorem Resolved.recorded {sequence : Sequence} (resolved : sequence.Resolved) :
    sequence.uses.recorded = [] :=
  (uses_iff recorded_splits sequence).2 <| resolved.mono sequence
    (fun _ each coupling pulse found => (each coupling pulse found).recorded)
    fun interval _ => (interval.uses_iff recorded_splits).2 fun bound _ => bound.uses_recorded

theorem Resolved.fixed (sequence : Sequence) (resolved : sequence.Resolved)
    (closed : sequence.uses.scalars = []) : sequence.Fixed := by
  rw [uses_iff scalars_splits] at closed
  refine (Each.and sequence resolved closed).mono sequence ?_ ?_
  · rintro pulses ⟨pulsesResolved, pulsesClosed⟩ coupling pulse found
    exact (pulsesResolved coupling pulse found).fixed pulse (pulsesClosed coupling pulse found)
  · rintro interval ⟨tidied, intervalClosed⟩ bound member
    exact ⟨tidied bound member, (interval.uses_iff scalars_splits).1 intervalClosed bound member⟩

theorem assign_all_ok_iff {bindings : Bindings} (parts results : List Sequence) :
    assignAll bindings parts = .ok results ↔
      List.Forall₂ (fun part result => part.assign bindings = .ok result) parts results := by
  have asMap : assignAll bindings parts = parts.mapM (assign bindings) := by
    induction parts with
    | nil => rfl
    | cons part rest ih => rw [assignAll, List.mapM_cons, ih]
  rw [asMap, Outcome.mapM_ok_iff]

theorem assign_resolved {bindings : Bindings} (sequence result : Sequence)
    (bound : sequence.Each (PerCoupling.EachPulse (Pulse.Recorded bindings)) fun _ => True)
    (assigned : sequence.assign bindings = .ok result) : result.Resolved := by
  induction sequence using Sequence.parts_induction generalizing result with
  | plain pulses =>
      simp only [assign, Outcome.bind_ok_iff, Outcome.pure_ok_iff] at assigned
      obtain ⟨pulses', pulsesOk, rfl⟩ := assigned
      intro coupling pulse' found
      have related := PerCoupling.mapM_ok pulsesOk coupling
      rw [found] at related
      cases given : pulses.get? coupling with
      | none => rw [given] at related; cases related
      | some pulse =>
          rw [given] at related
          cases related with
          | some pulseOk =>
              exact Pulse.assign_resolved pulse pulse' (bound coupling pulse given) pulseOk
  | append parts ih =>
      simp only [assign, Outcome.bind_ok_iff, Outcome.pure_ok_iff, assign_all_ok_iff] at assigned
      obtain ⟨parts', each, rfl⟩ := assigned
      rw [each_append_iff] at bound
      refine (each_append_iff _).2 fun part' member => ?_
      obtain ⟨part, partMember, partOk⟩ := Outcome.source_of_mem each member
      exact ih part partMember part' (bound part partMember) partOk
  | slice inner interval ih =>
      simp only [assign, Outcome.bind_ok_iff, Outcome.pure_ok_iff] at assigned
      obtain ⟨inner', innerOk, interval', intervalOk, rfl⟩ := assigned
      exact ⟨ih inner' bound.1 innerOk, Interval.assign_tidy intervalOk⟩
  | named name inner ih =>
      simp only [assign, Outcome.bind_ok_iff, Outcome.pure_ok_iff] at assigned
      obtain ⟨inner', innerOk, rfl⟩ := assigned
      exact ih inner' bound innerOk

/-- Names that are bound for all records of a sequence are bound for those of every pulse. -/
theorem recorded_each {bindings : Bindings} (sequence : Sequence)
    (bound : ∀ record ∈ sequence.records, bindings.scalars.contains record.name = true) :
    sequence.Each (PerCoupling.EachPulse (Pulse.Recorded bindings)) fun _ => True := by
  apply each_of_plains
  intro pulses pulsesMember coupling pulse pulseFound
  apply Pulse.each_of_plains
  intro fields fieldsMember name field fieldFound drive driveMember record recordMember
  apply bound
  refine List.mem_flatMap.2 ⟨drive.waveform, ?_, recordMember⟩
  refine List.mem_flatMap.2 ⟨pulses, pulsesMember, ?_⟩
  refine List.mem_flatMap.2
    ⟨(coupling, pulse), (pulses.mem_entries_iff coupling pulse).2 pulseFound, ?_⟩
  refine List.mem_flatMap.2 ⟨fields, fieldsMember, ?_⟩
  exact List.mem_flatMap.2 ⟨(name, field), (fields.mem_entries_iff name field).2 fieldFound,
    List.mem_map.2 ⟨drive, driveMember, rfl⟩⟩

end Sequence

theorem Bindings.bind_ok {bindings extended : Bindings} {name : String} {value : Decimal}
    (bound : bindings.bind name value = .ok extended) :
    extended.scalars = bindings.scalars.insert name value := by
  unfold bind at bound
  split at bound <;> cases bound
  rfl

namespace Record

variable [Natives]

theorem bind_all_keeps (records : List Record) {bindings extended : Bindings}
    (bound : bindAll bindings records = (extended, none)) {name : String}
    (known : bindings.scalars.contains name = true) :
    extended.scalars.contains name = true := by
  induction records generalizing bindings with
  | nil =>
      cases bound
      exact known
  | cons record rest ih =>
      unfold bindAll at bound
      split at bound
      case h_1 next nextOk =>
          apply ih bound
          simp only [bind, Outcome.bind_ok_iff] at nextOk
          obtain ⟨value, _, valueBound⟩ := nextOk
          rw [Bindings.bind_ok valueBound, NameMap.contains, NameMap.find_insert]
          split_ifs
          · rfl
          · exact known
      case h_2 => cases bound

theorem bind_all_binds (records : List Record) {bindings extended : Bindings}
    (bound : bindAll bindings records = (extended, none)) :
    ∀ record ∈ records, extended.scalars.contains record.name = true := by
  induction records generalizing bindings with
  | nil => simp
  | cons record rest ih =>
      unfold bindAll at bound
      split at bound
      case h_1 next nextOk =>
          refine List.forall_mem_cons.2 ⟨bind_all_keeps rest bound ?_, ih bound⟩
          simp only [bind, Outcome.bind_ok_iff] at nextOk
          obtain ⟨value, _, valueBound⟩ := nextOk
          rw [Bindings.bind_ok valueBound, NameMap.contains, NameMap.find_insert, if_pos rfl]
          rfl
      case h_2 => cases bound

end Record

theorem Circuit.assign_resolved [Natives] {circuit assigned : Circuit} {given bound : Bindings}
    (scanned : circuit.sequence.recordedBindings given = .ok bound)
    (succeeds : circuit.assign bound = .ok assigned) : assigned.sequence.Resolved := by
  have names : ∀ record ∈ circuit.sequence.records,
      bound.scalars.contains record.name = true := by
    unfold Sequence.recordedBindings at scanned
    split at scanned
    case h_1 extended allBound =>
        rw [Except.ok.injEq] at scanned
        subst scanned
        exact Record.bind_all_binds _ allBound
    case h_2 => cases scanned
  simp only [Circuit.assign, Outcome.bind_ok_iff, Outcome.pure_ok_iff] at succeeds
  obtain ⟨sequence, sequenceOk, rfl⟩ := succeeds
  exact Sequence.assign_resolved _ _ (Sequence.recorded_each _ names) sequenceOk

/-- The sequence of a routine that is bound has no variable left. -/
theorem Routine.bound_fixed [Natives] {routine : Routine} {batch : Nat} {arguments : List Decimal}
    {circuit : Circuit} {bindings : Bindings}
    (bound : routine.bound batch arguments = .ok (circuit, bindings)) :
    circuit.sequence.Fixed := by
  unfold Routine.bound at bound
  obtain ⟨given, _, rest⟩ := (Outcome.bind_ok_iff _ _ _).1 bound
  obtain ⟨recorded, recordedOk, rest⟩ := (Outcome.bind_ok_iff _ _ _).1 rest
  obtain ⟨assigned, assignedOk, rest⟩ := (Outcome.bind_ok_iff _ _ _).1 rest
  obtain ⟨checked, same⟩ := (Outcome.check_ok_iff _ _ _).1 rest
  rw [Outcome.pure_ok_iff, Prod.mk.injEq] at same
  obtain ⟨rfl, rfl⟩ := same
  have resolved := Circuit.assign_resolved recordedOk assignedOk
  exact resolved.fixed _ (Variables.scalars_of_check resolved.recorded checked)

end Analog
