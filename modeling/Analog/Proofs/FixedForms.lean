import Analog.Proofs.CanonicalNumbers
import Analog.Proofs.CanonicalWaveforms
import Analog.Proofs.WaveformEquality

/-!
# Canonical forms of fixed waveforms

The canonical form of a waveform without variables has a number for every scalar, has no
append of nothing in it, and lasts as long as the waveform, if that has a duration at all.
Each rule of simplification keeps durations, and a remembered waveform has the duration of
its equals.
-/

set_option autoImplicit false

namespace Analog.Waveform

variable {bindings : ScalarBindings}

theorem add_duration_ok_iff (left right : Waveform) (length : Decimal) :
    duration bindings (.add left right) = .ok length ↔
      ∃ first second, duration bindings left = .ok first ∧ duration bindings right = .ok second ∧
        length = max first second := by
  simp only [duration, Outcome.bind_ok_iff, Outcome.pure_ok_iff]
  grind

theorem slice_duration_ok_iff (inner : Waveform) (interval : Interval) (length : Decimal) :
    duration bindings (.slice inner interval) = .ok length ↔
      ∃ extent start stop, duration bindings inner = .ok extent ∧
        Scalar.evalBound bindings interval.start = .ok start ∧
        Scalar.evalBound bindings interval.stop = .ok stop ∧
        sliceLength extent start stop = .ok length := by
  simp only [duration, sliceBounds, Outcome.bind_ok_iff, Outcome.pure_ok_iff, Outcome.blame_ok_iff]
  constructor
  · rintro ⟨extent, extentOk, bounds, ⟨start, startOk, stop, stopOk, found, foundOk, rfl⟩, rfl⟩
    refine ⟨extent, start, stop, extentOk, startOk, stopOk, ?_⟩
    rw [foundOk, add_sub_cancel_left]
  · rintro ⟨extent, start, stop, extentOk, startOk, stopOk, found⟩
    exact ⟨extent, extentOk, _, ⟨start, startOk, stop, stopOk, length, found, rfl⟩,
      add_sub_cancel_left _ _⟩

theorem duration_nonneg {waveform : Waveform} {length : Decimal}
    (lasts : duration bindings waveform = .ok length) : 0 ≤ length := by
  -- A duration does not depend on what native functions give.
  let _ : Natives := ⟨fun _ _ _ => .ok 0⟩
  obtain ⟨meaning, means, same⟩ := signal_of_duration lasts
  rw [← same]
  exact (signal_bounded bindings waveform meaning means).nonneg

theorem total_duration_append_iff (before after : List Waveform) (total : Decimal) :
    totalDuration bindings (before ++ after) = .ok total ↔
      ∃ first second, totalDuration bindings before = .ok first ∧
        totalDuration bindings after = .ok second ∧ total = first + second := by
  induction before generalizing total with
  | nil => simp [totalDuration]
  | cons part rest ih =>
      simp only [List.cons_append, totalDuration, Outcome.bind_ok_iff, Outcome.pure_ok_iff, ih]
      constructor
      · rintro ⟨first, firstOk, _, ⟨others, later, othersOk, laterOk, rfl⟩, rfl⟩
        exact ⟨_, later, ⟨first, firstOk, others, othersOk, rfl⟩, laterOk, (add_assoc _ _ _).symm⟩
      · rintro ⟨_, later, ⟨first, firstOk, others, othersOk, rfl⟩, laterOk, rfl⟩
        exact ⟨first, firstOk, _, ⟨others, later, othersOk, laterOk, rfl⟩, (add_assoc _ _ _).symm⟩

theorem total_duration_single_iff (part : Waveform) (total : Decimal) :
    totalDuration bindings [part] = .ok total ↔ duration bindings part = .ok total := by
  simp [totalDuration, Outcome.bind_ok_iff]

theorem leaf_duration_of_same {first second : Scalar} (firstTidy : first.tidy = true)
    (secondTidy : second.tidy = true) (equal : first.same second = true) (length : Decimal) :
    leafDuration bindings first = .ok length ↔ leafDuration bindings second = .ok length := by
  rw [leaf_duration_ok_iff, leaf_duration_ok_iff,
    Canonical.eval_iff_of_same firstTidy secondTidy equal]

theorem eval_bound_iff_of_same {first second : Option Scalar}
    (firstTidy : ∀ bound ∈ first, bound.tidy = true)
    (secondTidy : ∀ bound ∈ second, bound.tidy = true)
    (equal : Scalar.sameBound first second = true) (value : Option Decimal) :
    Scalar.evalBound bindings first = .ok value ↔ Scalar.evalBound bindings second = .ok value := by
  cases first with
  | none =>
      cases second with
      | none => exact Iff.rfl
      | some _ => exact absurd equal (by simp [Scalar.sameBound])
  | some left =>
      cases second with
      | none => exact absurd equal (by simp [Scalar.sameBound])
      | some right =>
          simp only [Scalar.evalBound, Outcome.bind_ok_iff, Outcome.pure_ok_iff,
            Canonical.eval_iff_of_same (firstTidy left rfl) (secondTidy right rfl) equal]

theorem total_duration_of_same {parts others : List Waveform}
    (each : ∀ part ∈ parts, ∀ other ∈ others, part.same other = true → ∀ length,
      duration bindings part = .ok length ↔ duration bindings other = .ok length)
    (equal : sameAll parts others = true) (total : Decimal) :
    totalDuration bindings parts = .ok total ↔ totalDuration bindings others = .ok total := by
  induction parts generalizing others total with
  | nil =>
      cases others with
      | nil => exact Iff.rfl
      | cons _ _ => exact absurd equal (by simp [sameAll])
  | cons part rest ih =>
      cases others with
      | nil => exact absurd equal (by simp [sameAll])
      | cons other others =>
          rw [sameAll, Bool.and_eq_true] at equal
          have restSame := fun total => @ih others (fun later laterMember another
            anotherMember => each later (by simp [laterMember]) another (by simp [anotherMember]))
            equal.2 total
          simp only [totalDuration, Outcome.bind_ok_iff, Outcome.pure_ok_iff, restSame,
            each part (by simp) other (by simp) equal.1]

theorem duration_iff_of_same (bindings : ScalarBindings) (first second : Waveform) (firstFixed : first.Fixed)
    (secondFixed : second.Fixed) (equal : first.same second = true) (length : Decimal) :
    duration bindings first = .ok length ↔ duration bindings second = .ok length := by
  induction first using Waveform.parts_induction generalizing second length with
  | constant value time =>
      cases second with
      | constant value' time' =>
          rw [same, Bool.and_eq_true] at equal
          exact leaf_duration_of_same (((fixed_iff _).1 firstFixed).1 time (by simp [scalars])).tidied
            (((fixed_iff _).1 secondFixed).1 time' (by simp [scalars])).tidied equal.2 length
      | _ => exact absurd equal (by simp [same])
  | ramp start stop time =>
      cases second with
      | ramp start' stop' time' =>
          rw [same, Bool.and_eq_true] at equal
          exact leaf_duration_of_same (((fixed_iff _).1 firstFixed).1 time (by simp [scalars])).tidied
            (((fixed_iff _).1 secondFixed).1 time' (by simp [scalars])).tidied equal.2 length
      | _ => exact absurd equal (by simp [same])
  | poly coefficients time =>
      cases second with
      | poly coefficients' time' =>
          rw [same, Bool.and_eq_true] at equal
          exact leaf_duration_of_same (((fixed_iff _).1 firstFixed).1 time (by simp [scalars])).tidied
            (((fixed_iff _).1 secondFixed).1 time' (by simp [scalars])).tidied equal.2 length
      | _ => exact absurd equal (by simp [same])
  | native name function time parameters =>
      cases second with
      | native name' function' time' parameters' =>
          rw [same, Bool.and_eq_true, Bool.and_eq_true] at equal
          exact leaf_duration_of_same (((fixed_iff _).1 firstFixed).1 time (by simp [scalars])).tidied
            (((fixed_iff _).1 secondFixed).1 time' (by simp [scalars])).tidied equal.1.2 length
      | _ => exact absurd equal (by simp [same])
  | negative inner ih =>
      cases second with
      | negative inner' =>
          exact ih inner' (((fixed_iff _).1 firstFixed).2 inner (by simp [children]))
            (((fixed_iff _).1 secondFixed).2 inner' (by simp [children])) equal length
      | _ => exact absurd equal (by simp [same])
  | add left right leftIh rightIh =>
      cases second with
      | add left' right' =>
          rw [same, Bool.and_eq_true] at equal
          have firstParts := ((fixed_iff _).1 firstFixed).2
          have secondParts := ((fixed_iff _).1 secondFixed).2
          simp only [add_duration_ok_iff,
            leftIh left' (firstParts left (by simp [children]))
              (secondParts left' (by simp [children])) equal.1,
            rightIh right' (firstParts right (by simp [children]))
              (secondParts right' (by simp [children])) equal.2]
      | _ => exact absurd equal (by simp [same])
  | scale factor inner ih =>
      cases second with
      | scale factor' inner' =>
          rw [same, Bool.and_eq_true] at equal
          exact ih inner' (((fixed_iff _).1 firstFixed).2 inner (by simp [children]))
            (((fixed_iff _).1 secondFixed).2 inner' (by simp [children])) equal.2 length
      | _ => exact absurd equal (by simp [same])
  | slice inner interval ih =>
      cases second with
      | slice inner' interval' =>
          rw [same, Bool.and_eq_true, Interval.same, Bool.and_eq_true] at equal
          obtain ⟨firstBounds, firstParts⟩ := (fixed_iff _).1 firstFixed
          obtain ⟨secondBounds, secondParts⟩ := (fixed_iff _).1 secondFixed
          obtain ⟨startFixed, stopFixed⟩ := (Interval.each_iff interval).1 firstBounds
          obtain ⟨startFixed', stopFixed'⟩ := (Interval.each_iff interval').1 secondBounds
          simp only [slice_duration_ok_iff,
            ih inner' (firstParts inner (by simp [children]))
              (secondParts inner' (by simp [children])) equal.2,
            eval_bound_iff_of_same (fun bound member => (startFixed bound member).tidied)
              (fun bound member => (startFixed' bound member).tidied) equal.1.1,
            eval_bound_iff_of_same (fun bound member => (stopFixed bound member).tidied)
              (fun bound member => (stopFixed' bound member).tidied) equal.1.2]
      | _ => exact absurd equal (by simp [same])
  | append parts ih =>
      cases second with
      | append parts' =>
          have firstParts := ((fixed_iff _).1 firstFixed).2
          have secondParts := ((fixed_iff _).1 secondFixed).2
          exact total_duration_of_same (fun part member other otherMember equal length =>
            ih part member other (firstParts part member) (secondParts other otherMember) equal
              length) equal length
      | _ => exact absurd equal (by simp [same])
  | record name inner side ih =>
      cases second with
      | record name' inner' side' =>
          rw [same, Bool.and_eq_true] at equal
          exact ih inner' (((fixed_iff _).1 firstFixed).2 inner (by simp [children]))
            (((fixed_iff _).1 secondFixed).2 inner' (by simp [children])) equal.2 length
      | _ => exact absurd equal (by simp [same])
  | sample inner step interpolation ih =>
      cases second with
      | sample inner' step' interpolation' =>
          rw [same, Bool.and_eq_true] at equal
          exact ih inner' (((fixed_iff _).1 firstFixed).2 inner (by simp [children]))
            (((fixed_iff _).1 secondFixed).2 inner' (by simp [children])) equal.2 length
      | _ => exact absurd equal (by simp [same])
  | smooth inner radius kernel ih =>
      cases second with
      | smooth inner' radius' kernel' =>
          rw [same, Bool.and_eq_true] at equal
          exact ih inner' (((fixed_iff _).1 firstFixed).2 inner (by simp [children]))
            (((fixed_iff _).1 secondFixed).2 inner' (by simp [children])) equal.2 length
      | _ => exact absurd equal (by simp [same])
  | aligned inner alignment fill ih =>
      cases second with
      | aligned inner' alignment' fill' =>
          rw [same, Bool.and_eq_true] at equal
          exact ih inner' (((fixed_iff _).1 firstFixed).2 inner (by simp [children]))
            (((fixed_iff _).1 secondFixed).2 inner' (by simp [children])) equal.2 length
      | _ => exact absurd equal (by simp [same])

/-- A waveform that has a number for every scalar, and parts in every append. -/
def Numerical (waveform : Waveform) : Prop :=
  ∀ node ∈ waveform.nodes, node ≠ .append [] ∧
    ∀ scalar ∈ node.scalars, ∃ number, scalar.value? = some number

theorem numerical_iff (waveform : Waveform) :
    waveform.Numerical ↔
      (waveform ≠ .append [] ∧ ∀ scalar ∈ waveform.scalars, ∃ number, scalar.value? = some number) ∧
        ∀ child ∈ waveform.children, child.Numerical :=
  each_node_iff _ waveform

theorem Numerical.fixed {waveform : Waveform} (numerical : waveform.Numerical) : waveform.Fixed := by
  intro node nodeMember scalar member
  obtain ⟨number, found⟩ := (numerical node nodeMember).2 scalar member
  exact Canonical.number_fixed found

theorem mem_nodes_of_exposed (waveform : Waveform) :
    ∀ node ∈ waveform.exposed, node ∈ waveform.nodes := by
  induction waveform using Waveform.parts_induction with
  | append parts ih =>
      intro node member
      rw [exposed, List.mem_cons, mem_exposed_all] at member
      rw [nodes, List.mem_cons, mem_nodes_all]
      refine member.imp id ?_
      rintro ⟨part, partMember, found⟩
      exact ⟨part, partMember, ih part partMember _ found⟩
  | _ => grind [exposed, nodes]

theorem Numerical.filled {waveform : Waveform} (numerical : waveform.Numerical) :
    ∀ node ∈ waveform.exposed, node ≠ .append [] :=
  fun node member => (numerical node (mem_nodes_of_exposed waveform node member)).1

theorem numerical_constant_iff (value time : Scalar) :
    (constant value time).Numerical ↔
      (∃ number, value.value? = some number) ∧ ∃ number, time.value? = some number := by
  rw [numerical_iff]
  simp [scalars, children]

@[simp] theorem numerical_negative_iff (inner : Waveform) :
    (negative inner).Numerical ↔ inner.Numerical := by
  rw [numerical_iff]
  simp [scalars, children]

@[simp] theorem numerical_add_iff (left right : Waveform) :
    (add left right).Numerical ↔ left.Numerical ∧ right.Numerical := by
  rw [numerical_iff]
  simp [scalars, children]

theorem numerical_scale_iff (factor : Scalar) (inner : Waveform) :
    (scale factor inner).Numerical ↔ (∃ number, factor.value? = some number) ∧ inner.Numerical := by
  rw [numerical_iff]
  simp [scalars, children]

theorem numerical_slice_iff (inner : Waveform) (interval : Interval) :
    (slice inner interval).Numerical ↔
      (∀ bound ∈ interval.bounds, ∃ number, bound.value? = some number) ∧ inner.Numerical := by
  rw [numerical_iff]
  simp [scalars, children]

@[simp] theorem numerical_append_iff (parts : List Waveform) :
    (append parts).Numerical ↔ parts ≠ [] ∧ ∀ part ∈ parts, part.Numerical := by
  rw [numerical_iff]
  simp [scalars, children]

section

variable {good : Scalar → Prop} (family : Scalar.Family good)

include family

theorem sum_of_durations_each {durations : List Scalar}
    (each : ∀ duration ∈ durations, good duration) : good (sumOfDurations durations) := by
  have folded : ∀ (rest : List Scalar) (first : Scalar), (∀ duration ∈ rest, good duration) →
      good first → good (rest.foldl Scalar.add first) := by
    intro rest first restGood firstGood
    induction rest generalizing first with
    | nil => exact firstGood
    | cons next rest ih =>
        obtain ⟨nextGood, othersGood⟩ := List.forall_mem_cons.1 restGood
        exact ih _ othersGood (family.add _ _ firstGood nextGood)
  cases durations with
  | nil => exact family.literal 0
  | cons first rest =>
      obtain ⟨firstGood, restGood⟩ := List.forall_mem_cons.1 each
      exact folded rest first restGood firstGood

/-- The duration of a waveform is in every family in which its scalars are. -/
theorem symbolic_duration_each (waveform : Waveform) (each : waveform.Each good) :
    good waveform.symbolicDuration := by
  induction waveform using Waveform.parts_induction with
  | constant value time => exact ((each_iff _).1 each).1 time (by simp [scalars])
  | ramp start stop time => exact ((each_iff _).1 each).1 time (by simp [scalars])
  | poly coefficients time => exact ((each_iff _).1 each).1 time (by simp [scalars])
  | native name function time parameters => exact ((each_iff _).1 each).1 time (by simp [scalars])
  | add left right leftIh rightIh =>
      have parts := ((each_iff _).1 each).2
      apply family.maximum
      simpa using ⟨leftIh (parts left (by simp [children])), rightIh (parts right (by simp [children]))⟩
  | slice inner interval ih =>
      obtain ⟨bounds, parts⟩ := (each_iff _).1 each
      obtain ⟨startGood, stopGood⟩ := (Interval.each_iff interval).1 bounds
      exact family.slice _ _ _ (ih (parts inner (by simp [children]))) startGood stopGood
  | append parts ih =>
      have inside := ((each_iff _).1 each).2
      rw [symbolicDuration, symbolic_durations_eq_map]
      apply sum_of_durations_each family
      rw [List.forall_mem_map]
      exact fun part member => ih part member (inside part member)
  | negative inner ih
  | scale _ inner ih
  | record _ inner _ ih
  | sample inner _ _ ih
  | smooth inner _ _ ih
  | aligned inner _ _ ih => exact ih (((each_iff _).1 each).2 inner (by simp [children]))

end

end Analog.Waveform

namespace Analog.Canonical

open Waveform

variable {bindings : ScalarBindings}

/-- A numerical waveform that lasts as long as the given one, if that has a duration. -/
structure Replaces (bindings : ScalarBindings) (given result : Waveform) : Prop where
  numerical : result.Numerical
  lasts : ∀ length, given.duration bindings = .ok length → result.duration bindings = .ok length

/-- What is remembered of a waveform: it is fixed, and its canonical form replaces it. -/
def ReplacesFixed (bindings : ScalarBindings) (given result : Waveform) : Prop :=
  given.Fixed ∧ Replaces bindings given result

abbrev Steady (bindings : ScalarBindings) : Memo → Prop :=
  Numeric bindings (ReplacesFixed bindings)

theorem replaces_itself {given : Waveform} (numerical : given.Numerical) :
    Replaces bindings given given :=
  ⟨numerical, fun _ lasts => lasts⟩

theorem Replaces.trans {first second third : Waveform} (firstReplaces : Replaces bindings second third)
    (lasts : ∀ length, first.duration bindings = .ok length →
      second.duration bindings = .ok length) : Replaces bindings first third :=
  ⟨firstReplaces.numerical, fun length lastsFirst =>
    firstReplaces.lasts length (lasts length lastsFirst)⟩

theorem Replaces.of_same {first second result : Waveform}
    (replaces : Replaces bindings first result) (firstFixed : first.Fixed)
    (secondFixed : second.Fixed) (equal : first.same second = true) :
    Replaces bindings second result :=
  ⟨replaces.numerical, fun length lasts => replaces.lasts length
    ((duration_iff_of_same bindings first second firstFixed secondFixed equal length).2 lasts)⟩

/-- A number that is the duration of a waveform, if there is one. -/
def Times (bindings : ScalarBindings) (given : Waveform) (length : Scalar) : Prop :=
  ∃ number, length.value? = some number ∧
    ∀ value, given.duration bindings = .ok value → value = number

theorem duration_keeps {given : Waveform} (fixed : given.Fixed) :
    Keeps (Steady bindings) (duration given) (Times bindings given) := by
  refine (scalar_keeps _ (symbolic_duration_each Scalar.fixed_family given fixed)).mono fun length settles => ?_
  obtain ⟨number, found, only⟩ := settles
  exact ⟨number, found, fun value lasts =>
    only value (symbolic_duration_known given value fixed.tidied lasts).evaluates⟩

theorem constant_duration_ok_iff {value length : Scalar} {number : Decimal}
    (found : length.value? = some number) (total : Decimal) :
    (constant value length).duration bindings = .ok total ↔ total = number ∧ 0 ≤ total := by
  rw [Waveform.duration, leaf_duration_ok_iff, (number_known found).evaluates, Except.ok.injEq,
    eq_comm]

theorem constant_replaces {given : Waveform} {value length : Scalar}
    (valued : ∃ number, value.value? = some number) (times : Times bindings given length) :
    Replaces bindings given (.constant value length) := by
  obtain ⟨number, found, only⟩ := times
  refine ⟨(numerical_constant_iff _ _).2 ⟨valued, number, found⟩, fun total lasts => ?_⟩
  exact (constant_duration_ok_iff found total).2 ⟨only total lasts, duration_nonneg lasts⟩

theorem scale_keeps {factor : Scalar} {given : Waveform}
    (valued : ∃ number, factor.value? = some number) (numerical : given.Numerical) :
    Keeps (Steady bindings) (scale factor given) (Replaces bindings given) := by
  fun_induction scale factor given with
  | case1 factor given zero =>
      exact (duration_keeps numerical.fixed).bind fun length times =>
        .pure (constant_replaces ⟨0, rfl⟩ times)
  | case2 => exact .pure (replaces_itself numerical)
  | case3 factor _ _ innerFactor inner ih =>
      obtain ⟨⟨innerNumber, innerFound⟩, innerNumerical⟩ := (numerical_scale_iff _ _).1 numerical
      obtain ⟨number, found⟩ := valued
      exact (ih ⟨_, product_number found innerFound⟩ innerNumerical).mono fun result replaces =>
        replaces.trans fun _ lasts => lasts
  | case4 factor _ _ value length =>
      obtain ⟨⟨valueNumber, valueFound⟩, lengthValued⟩ := (numerical_constant_iff _ _).1 numerical
      obtain ⟨number, found⟩ := valued
      exact .pure ⟨(numerical_constant_iff _ _).2
        ⟨⟨_, product_number found valueFound⟩, lengthValued⟩, fun _ lasts => lasts⟩
  | case5 => exact .pure ⟨(numerical_scale_iff _ _).2 ⟨valued, numerical⟩, fun _ lasts => lasts⟩

theorem negate_keeps {given : Waveform} (numerical : given.Numerical) :
    Keeps (Steady bindings) (negate given) (Replaces bindings given) := by
  have negated : Keeps (Steady bindings) (pure (.negative given)) (Replaces bindings given) :=
    .pure ⟨(numerical_negative_iff _).2 numerical, fun _ lasts => lasts⟩
  unfold negate
  split
  case h_1 inner => exact .pure ⟨(numerical_negative_iff _).1 numerical, fun _ lasts => lasts⟩
  case h_2 value length =>
      obtain ⟨⟨number, found⟩, lengthValued⟩ := (numerical_constant_iff _ _).1 numerical
      exact .pure ⟨(numerical_constant_iff _ _).2 ⟨⟨_, negative_number found⟩, lengthValued⟩,
        fun _ lasts => lasts⟩
  case h_3 factor inner =>
      split
      case h_1 value found =>
          split_ifs
          · have scaled : Keeps (Steady bindings) (scale (.literal (-value)) inner)
                (Replaces bindings inner) :=
              scale_keeps ⟨-value, rfl⟩ ((numerical_scale_iff _ _).1 numerical).2
            exact scaled.mono fun result replaces => replaces.trans fun _ lasts => lasts
          · exact negated
      case h_2 => exact negated
  case h_4 => exact negated

theorem is_redundant_keeps {given other : Waveform} (numerical : given.Numerical)
    (otherNumerical : other.Numerical) :
    Keeps (Steady bindings) (isRedundant given other) fun redundant => redundant = true →
      ∀ length, (Waveform.add given other).duration bindings = .ok length →
        other.duration bindings = .ok length := by
  -- A constant that does not outlast the other operand leaves the duration to it.
  have shorter : ∀ first second, first ≤ second → given.duration bindings = .ok first →
      other.duration bindings = .ok second → other.duration bindings = .ok (max first second) := by
    intro first second ordered _ otherLasts
    rwa [max_eq_right ordered]
  unfold isRedundant
  split
  case h_1 value length =>
      obtain ⟨_, number, found⟩ := (numerical_constant_iff _ _).1 numerical
      split_ifs with empty zero
      · refine .pure fun _ total lasts => ?_
        obtain ⟨first, second, firstLasts, secondLasts, rfl⟩ := (add_duration_ok_iff _ _ _).1 lasts
        refine shorter first second ?_ firstLasts secondLasts
        rw [((constant_duration_ok_iff found _).1 firstLasts).1]
        have isZero : number = 0 := by simpa [Scalar.isZero, found] using empty
        rw [isZero]
        exact duration_nonneg secondLasts
      · refine (duration_keeps otherNumerical.fixed).bind fun otherLength times => ?_
        obtain ⟨otherNumber, otherFound, only⟩ := times
        split_ifs with sameLength
        · refine .pure fun _ total lasts => ?_
          obtain ⟨first, second, firstLasts, secondLasts, rfl⟩ :=
            (add_duration_ok_iff _ _ _).1 lasts
          refine shorter first second ?_ firstLasts secondLasts
          rw [((constant_duration_ok_iff found _).1 firstLasts).1, only second secondLasts,
            number_of_same found otherFound sameLength]
        · rw [found, otherFound]
          refine .pure fun ordered total lasts => ?_
          obtain ⟨first, second, firstLasts, secondLasts, rfl⟩ :=
            (add_duration_ok_iff _ _ _).1 lasts
          refine shorter first second ?_ firstLasts secondLasts
          rw [((constant_duration_ok_iff found _).1 firstLasts).1, only second secondLasts]
          exact of_decide_eq_true ordered
      · exact .pure fun impossible => absurd impossible (by simp)
  case h_2 => exact .pure fun impossible => absurd impossible (by simp)

/-- A sum of waveforms that last equally long lasts as long as either. -/
theorem lasts_of_equal_sum {left right : Waveform}
    (equal : ∀ length, left.duration bindings = .ok length ↔ right.duration bindings = .ok length)
    (length : Decimal) (lasts : (Waveform.add left right).duration bindings = .ok length) :
    left.duration bindings = .ok length := by
  obtain ⟨first, second, firstLasts, secondLasts, rfl⟩ := (add_duration_ok_iff _ _ _).1 lasts
  rw [equal, secondLasts, Except.ok.injEq] at firstLasts
  rw [firstLasts, max_self, equal, ← firstLasts]
  exact secondLasts

theorem add_comm_lasts {left right : Waveform} (length : Decimal)
    (lasts : (Waveform.add left right).duration bindings = .ok length) :
    (Waveform.add right left).duration bindings = .ok length := by
  obtain ⟨first, second, firstLasts, secondLasts, rfl⟩ := (add_duration_ok_iff _ _ _).1 lasts
  exact (add_duration_ok_iff _ _ _).2 ⟨second, first, secondLasts, firstLasts, max_comm _ _⟩

theorem plain_sum_keeps {left right : Waveform} (leftNumerical : left.Numerical)
    (rightNumerical : right.Numerical) :
    Keeps (Steady bindings) (plainSum left right) (Replaces bindings (.add left right)) := by
  have added : Keeps (Steady bindings) (pure (.add left right))
      (Replaces bindings (.add left right)) :=
    .pure (replaces_itself ((numerical_add_iff _ _).2 ⟨leftNumerical, rightNumerical⟩))
  unfold plainSum
  split
  case h_1 factor inner =>
      split_ifs with equal
      · obtain ⟨⟨number, found⟩, innerNumerical⟩ := (numerical_scale_iff _ _).1 rightNumerical
        have alike := duration_iff_of_same bindings _ _ innerNumerical.fixed
          leftNumerical.fixed equal
        exact (scale_keeps ⟨_, sum_number found rfl⟩ leftNumerical).mono fun result replaces =>
          replaces.trans (lasts_of_equal_sum fun length => (alike length).symm)
      · exact added
  case h_2 => exact added

def AddKeeps (bindings : ScalarBindings) (left right : Waveform) : Prop :=
  left.Numerical → right.Numerical →
    Keeps (Steady bindings) (add left right) (Replaces bindings (.add left right))

/-- One step of the sum; the sum of the waveforms inside two scales is left to the recursion. -/
theorem add_keeps_step {left right : Waveform}
    (recursion : ∀ factor inner, left = .scale factor inner → ∀ other,
      AddKeeps bindings inner other) : AddKeeps bindings left right := by
  intro leftNumerical rightNumerical
  have plain : Keeps (Steady bindings) (plainSum left right)
      (Replaces bindings (.add left right)) := plain_sum_keeps leftNumerical rightNumerical
  unfold add
  split_ifs with equal
  · have alike := duration_iff_of_same bindings _ _ leftNumerical.fixed
      rightNumerical.fixed equal
    exact (scale_keeps ⟨2, rfl⟩ leftNumerical).mono fun result replaces =>
      replaces.trans (lasts_of_equal_sum alike)
  refine (is_redundant_keeps leftNumerical rightNumerical).bind fun leftRedundant leftLasts => ?_
  split_ifs with leftNothing
  · exact .pure ⟨rightNumerical, leftLasts leftNothing⟩
  refine (is_redundant_keeps rightNumerical leftNumerical).bind fun rightRedundant rightLasts => ?_
  split_ifs with rightNothing
  · exact .pure ⟨leftNumerical, fun length lasts =>
      rightLasts rightNothing length (add_comm_lasts length lasts)⟩
  split
  case h_1 leftValue leftLength rightValue rightLength =>
      split_ifs with sameLength
      · obtain ⟨⟨first, leftFound⟩, number, lengthFound⟩ := (numerical_constant_iff _ _).1 leftNumerical
        obtain ⟨⟨second, rightFound⟩, otherNumber, otherFound⟩ :=
          (numerical_constant_iff _ _).1 rightNumerical
        have alike : ∀ length, (constant leftValue leftLength).duration bindings = .ok length ↔
            (constant rightValue rightLength).duration bindings = .ok length :=
          leaf_duration_of_same (number_tidy lengthFound)
            (number_tidy otherFound) sameLength
        exact .pure ⟨(numerical_constant_iff _ _).2
          ⟨⟨_, sum_number leftFound rightFound⟩, number, lengthFound⟩, lasts_of_equal_sum alike⟩
      · exact plain
  case h_2 leftFactor leftInner rightFactor rightInner =>
      obtain ⟨⟨first, leftFound⟩, leftInnerNumerical⟩ := (numerical_scale_iff _ _).1 leftNumerical
      obtain ⟨⟨second, rightFound⟩, rightInnerNumerical⟩ := (numerical_scale_iff _ _).1 rightNumerical
      split_ifs with sameFactor sameInner
      · refine (recursion leftFactor leftInner rfl rightInner leftInnerNumerical
          rightInnerNumerical).bind fun inner innerReplaces => ?_
        exact (scale_keeps ⟨first, leftFound⟩ innerReplaces.numerical).mono fun result replaces =>
          replaces.trans innerReplaces.lasts
      · have alike := duration_iff_of_same bindings _ _ leftInnerNumerical.fixed
          rightInnerNumerical.fixed sameInner
        exact (scale_keeps ⟨_, sum_number leftFound rightFound⟩ leftInnerNumerical).mono
          fun result replaces => replaces.trans (lasts_of_equal_sum alike)
      · exact plain
  case h_3 leftFactor leftInner _ =>
      split_ifs with sameInner
      · obtain ⟨⟨first, leftFound⟩, leftInnerNumerical⟩ := (numerical_scale_iff _ _).1 leftNumerical
        have alike := duration_iff_of_same bindings _ _ leftInnerNumerical.fixed
          rightNumerical.fixed sameInner
        exact (scale_keeps ⟨_, sum_number leftFound rfl⟩ rightNumerical).mono fun result replaces =>
          replaces.trans fun length lasts => (alike length).1 (lasts_of_equal_sum alike length lasts)
      · exact plain
  case h_4 => exact plain

theorem add_keeps (left right : Waveform) : AddKeeps bindings left right := by
  induction left using Waveform.parts_induction generalizing right with
  | scale factor inner ih =>
      apply add_keeps_step
      rintro _ _ ⟨⟩ other
      exact ih other
  | _ =>
      apply add_keeps_step
      rintro _ _ ⟨⟩

def Bounded (bounds : Interval) : Prop :=
  ∀ bound ∈ bounds.bounds, ∃ number, bound.value? = some number

theorem bounded_iff (bounds : Interval) :
    Bounded bounds ↔ (∃ number, boundValue? bounds.start = some number) ∧
      ∃ number, boundValue? bounds.stop = some number := by
  have bound : ∀ given : Option Scalar, (∃ number, boundValue? given = some number) ↔
      ∀ scalar ∈ given, ∃ number, scalar.value? = some number := by
    intro given
    cases given <;> simp [boundValue?]
  rw [bound, bound, Bounded]
  simp [Interval.bounds, or_imp, forall_and]

theorem eval_bound_number {bound : Option Scalar} {number : Option Decimal}
    (found : boundValue? bound = some number) :
    Scalar.evalBound bindings bound = .ok number := by
  cases bound with
  | none =>
      rw [boundValue?, Option.some.injEq] at found
      rw [← found]
      rfl
  | some given =>
      rw [boundValue?, Option.map_eq_some_iff] at found
      obtain ⟨known, knownFound, rfl⟩ := found
      rw [Scalar.evalBound, (number_known knownFound).evaluates]
      rfl

theorem bound_number_ok {bound : Option Scalar} {number value : Option Decimal}
    (found : boundValue? bound = some number)
    (evaluates : Scalar.evalBound bindings bound = .ok value) : value = number := by
  rw [eval_bound_number found, Except.ok.injEq] at evaluates
  exact evaluates.symm

theorem covers_all_length {bounds : Interval} {length : Scalar} {extent total : Decimal}
    {start stop : Option Decimal} (bounded : Bounded bounds)
    (found : length.value? = some extent) (covers : coversAll bounds length = true)
    (startOk : Scalar.evalBound bindings bounds.start = .ok start)
    (stopOk : Scalar.evalBound bindings bounds.stop = .ok stop)
    (lengthOk : sliceLength extent start stop = .ok total) : total = extent := by
  obtain ⟨⟨startNumber, startFound⟩, stopNumber, stopFound⟩ := (bounded_iff bounds).1 bounded
  rw [bound_number_ok startFound startOk, bound_number_ok stopFound stopOk] at lengthOk
  rw [((Waveform.slice_length_ok_iff _ _ _ _).1 lengthOk).2]
  rw [coversAll, Bool.and_eq_true] at covers
  have startZero : startNumber.getD 0 = 0 := by
    cases given : bounds.start with
    | none =>
        rw [given, boundValue?, Option.some.injEq] at startFound
        rw [← startFound]
        rfl
    | some bound =>
        rw [given, boundValue?, Option.map_eq_some_iff] at startFound
        obtain ⟨number, numberFound, rfl⟩ := startFound
        have zero := covers.1
        rw [given] at zero
        simpa [Scalar.isZero, numberFound] using zero
  have stopWhole : stopNumber.getD extent = extent := by
    cases given : bounds.stop with
    | none =>
        rw [given, boundValue?, Option.some.injEq] at stopFound
        rw [← stopFound]
        rfl
    | some bound =>
        rw [given, boundValue?, Option.map_eq_some_iff] at stopFound
        obtain ⟨number, numberFound, rfl⟩ := stopFound
        have equal := covers.2
        rw [given] at equal
        exact number_of_same numberFound found equal
  rw [startZero, stopWhole, sub_zero]

def CutKeeps (bindings : ScalarBindings) (bounds : Interval) (given : Waveform) : Prop :=
  given.Numerical → Keeps (Steady bindings) (cut bounds given) (Replaces bindings (.slice given bounds))

/-- A slice has the duration of the slice of any waveform that lasts equally long. -/
theorem slice_lasts {given other : Waveform} {bounds : Interval}
    (lasts : ∀ length, given.duration bindings = .ok length →
      other.duration bindings = .ok length) (length : Decimal)
    (sliced : (Waveform.slice given bounds).duration bindings = .ok length) :
    (Waveform.slice other bounds).duration bindings = .ok length := by
  obtain ⟨extent, start, stop, extentOk, rest⟩ := (slice_duration_ok_iff _ _ _).1 sliced
  exact (slice_duration_ok_iff _ _ _).2 ⟨extent, start, stop, lasts extent extentOk, rest⟩

/-- One step of a slice; slices inside scales and negations are left to the recursion. -/
theorem cut_keeps_step {bounds : Interval} {given : Waveform} (bounded : Bounded bounds)
    (insideScale : ∀ factor inner, given = .scale factor inner → CutKeeps bindings bounds inner)
    (insideNegation : ∀ inner, given = .negative inner → CutKeeps bindings bounds inner) :
    CutKeeps bindings bounds given := by
  intro numerical
  unfold cut
  refine (duration_keeps numerical.fixed).bind fun length times => ?_
  split_ifs with covers
  · refine .pure ⟨numerical, fun total lasts => ?_⟩
    obtain ⟨number, found, only⟩ := times
    obtain ⟨extent, start, stop, extentOk, startOk, stopOk, lengthOk⟩ :=
      (slice_duration_ok_iff _ _ _).1 lasts
    obtain rfl := only extent extentOk
    rw [covers_all_length bounded found covers startOk stopOk lengthOk]
    exact extentOk
  split
  case h_1 factor inner =>
      obtain ⟨valued, innerNumerical⟩ := (numerical_scale_iff _ _).1 numerical
      have outside : ∀ length,
          (Waveform.slice (.scale factor inner) bounds).duration bindings = .ok length →
          (Waveform.slice inner bounds).duration bindings = .ok length :=
        slice_lasts fun _ lasts => lasts
      refine (insideScale factor inner rfl innerNumerical).bind fun inner' innerReplaces => ?_
      exact (scale_keeps valued innerReplaces.numerical).mono fun result replaces =>
        replaces.trans fun length lasts => innerReplaces.lasts length (outside length lasts)
  case h_2 inner =>
      have innerNumerical := (numerical_negative_iff _).1 numerical
      have outside : ∀ length,
          (Waveform.slice (.negative inner) bounds).duration bindings = .ok length →
          (Waveform.slice inner bounds).duration bindings = .ok length :=
        slice_lasts fun _ lasts => lasts
      refine (insideNegation inner rfl innerNumerical).bind fun inner' innerReplaces => ?_
      exact (negate_keeps innerReplaces.numerical).mono fun result replaces =>
        replaces.trans fun length lasts => innerReplaces.lasts length (outside length lasts)
  case h_3 value extent =>
      obtain ⟨valued, number, found⟩ := (numerical_constant_iff _ _).1 numerical
      obtain ⟨⟨startNumber, startFound⟩, stopNumber, stopFound⟩ := (bounded_iff bounds).1 bounded
      have shortened : Keeps (Steady bindings) (lift (slice (fun _ =>
          (Waveform.slice (.constant value extent) bounds).text) extent bounds))
          (Times bindings (.slice (.constant value extent) bounds)) := by
        refine .lift fun length' made => ?_
        obtain ⟨result, resultFound, only⟩ := slice_number found startFound stopFound made
        refine ⟨result, resultFound, fun total lasts => only total ?_⟩
        obtain ⟨whole, start, stop, wholeOk, startOk, stopOk, lengthOk⟩ :=
          (slice_duration_ok_iff _ _ _).1 lasts
        rwa [((constant_duration_ok_iff found _).1 wholeOk).1, bound_number_ok startFound startOk,
          bound_number_ok stopFound stopOk] at lengthOk
      exact shortened.bind fun length' lengthTimes => .pure (constant_replaces valued lengthTimes)
  case h_4 => exact .pure (replaces_itself ((numerical_slice_iff _ _).2 ⟨bounded, numerical⟩))

theorem cut_keeps {bounds : Interval} (bounded : Bounded bounds) (given : Waveform) :
    CutKeeps bindings bounds given := by
  induction given using Waveform.parts_induction with
  | scale factor inner ih =>
      apply cut_keeps_step bounded
      · rintro _ _ ⟨⟩
        exact ih
      · rintro _ ⟨⟩
  | negative inner ih =>
      apply cut_keeps_step bounded
      · rintro _ _ ⟨⟩
      · rintro _ ⟨⟩
        exact ih
  | _ =>
      apply cut_keeps_step bounded
      · rintro _ _ ⟨⟩
      · rintro _ ⟨⟩

theorem splice_parts_numerical {parts : List Waveform} (numerical : ∀ part ∈ parts, part.Numerical) :
    ∀ part ∈ parts.flatMap spliceParts, part.Numerical := by
  intro part member
  obtain ⟨whole, wholeMember, found⟩ := List.mem_flatMap.1 member
  have wholeNumerical := numerical whole wholeMember
  unfold spliceParts at found
  split at found
  · exact ((numerical_append_iff _).1 wholeNumerical).2 part found
  · rw [List.mem_singleton.1 found]
    exact wholeNumerical

theorem splice_parts_last (parts : List Waveform) (total : Decimal)
    (lasts : totalDuration bindings parts = .ok total) :
    totalDuration bindings (parts.flatMap spliceParts) = .ok total := by
  induction parts generalizing total with
  | nil => exact lasts
  | cons part rest ih =>
      simp only [totalDuration, Outcome.bind_ok_iff, Outcome.pure_ok_iff] at lasts
      obtain ⟨first, firstOk, others, othersOk, rfl⟩ := lasts
      rw [List.flatMap_cons, total_duration_append_iff]
      refine ⟨first, others, ?_, ih others othersOk, rfl⟩
      unfold spliceParts
      split
      · exact firstOk
      · exact (total_duration_single_iff _ _).2 firstOk

theorem join_part_numerical {reversed : List Waveform} {part : Waveform}
    (reversedNumerical : ∀ other ∈ reversed, other.Numerical) (numerical : part.Numerical) :
    ∀ other ∈ joinPart reversed part, other.Numerical := by
  have apart : ∀ other ∈ part :: reversed, other.Numerical :=
    List.forall_mem_cons.2 ⟨numerical, reversedNumerical⟩
  unfold joinPart
  split
  case h_1 value length rest nextValue nextLength =>
      split_ifs
      · obtain ⟨lastNumerical, restNumerical⟩ := List.forall_mem_cons.1 reversedNumerical
        obtain ⟨valued, number, found⟩ := (numerical_constant_iff _ _).1 lastNumerical
        obtain ⟨_, nextNumber, nextFound⟩ := (numerical_constant_iff _ _).1 numerical
        exact List.forall_mem_cons.2 ⟨(numerical_constant_iff _ _).2
          ⟨valued, _, sum_number found nextFound⟩, restNumerical⟩
      · exact apart
  case h_2 => exact apart

theorem join_part_lasts {reversed : List Waveform} {part : Waveform}
    (reversedNumerical : ∀ other ∈ reversed, other.Numerical) (numerical : part.Numerical)
    (total : Decimal) (lasts : totalDuration bindings (part :: reversed) = .ok total) :
    totalDuration bindings (joinPart reversed part) = .ok total := by
  unfold joinPart
  split
  case h_1 value length rest nextValue nextLength =>
      split_ifs
      · obtain ⟨lastNumerical, _⟩ := List.forall_mem_cons.1 reversedNumerical
        obtain ⟨_, number, found⟩ := (numerical_constant_iff _ _).1 lastNumerical
        obtain ⟨_, nextNumber, nextFound⟩ := (numerical_constant_iff _ _).1 numerical
        simp only [totalDuration, Outcome.bind_ok_iff, Outcome.pure_ok_iff,
          constant_duration_ok_iff found, constant_duration_ok_iff nextFound,
          constant_duration_ok_iff (sum_number found nextFound)] at lasts ⊢
        obtain ⟨next, ⟨rfl, nextNonneg⟩, _, ⟨last, ⟨rfl, nonneg⟩, others, othersOk, rfl⟩, rfl⟩ :=
          lasts
        exact ⟨_, ⟨rfl, add_nonneg nonneg nextNonneg⟩, others, othersOk, by
          rw [← add_assoc, add_comm next last]⟩
      · exact lasts
  case h_2 => exact lasts

theorem total_duration_reverse {parts : List Waveform} {total : Decimal}
    (lasts : totalDuration bindings parts = .ok total) :
    totalDuration bindings parts.reverse = .ok total := by
  induction parts generalizing total with
  | nil => exact lasts
  | cons part rest ih =>
      simp only [totalDuration, Outcome.bind_ok_iff, Outcome.pure_ok_iff] at lasts
      obtain ⟨first, firstOk, others, othersOk, rfl⟩ := lasts
      rw [List.reverse_cons, total_duration_append_iff]
      exact ⟨others, first, ih othersOk, (total_duration_single_iff _ _).2 firstOk, add_comm _ _⟩

/-- All parts joined from left to right. The invariant is that the parts joined so far and those
to come are numerical and last as long as those at the start. -/
theorem join_parts_keeps (parts reversed : List Waveform)
    (reversedNumerical : ∀ other ∈ reversed, other.Numerical)
    (numerical : ∀ part ∈ parts, part.Numerical) :
    Keeps (Steady bindings) (joinParts reversed parts) fun result =>
      (∀ other ∈ result, other.Numerical) ∧
        ∀ before after, totalDuration bindings reversed = .ok before →
          totalDuration bindings parts = .ok after →
          totalDuration bindings result = .ok (before + after) := by
  induction parts generalizing reversed with
  | nil =>
      refine .pure ⟨reversedNumerical, fun before after beforeOk afterOk => ?_⟩
      obtain rfl : 0 = after := Except.ok.inj afterOk
      rw [add_zero]
      exact beforeOk
  | cons part rest ih =>
      obtain ⟨partNumerical, restNumerical⟩ := List.forall_mem_cons.1 numerical
      unfold joinParts
      refine (duration_keeps partNumerical.fixed).bind fun length times => ?_
      obtain ⟨number, found, only⟩ := times
      split_ifs with empty
      · refine (ih reversed reversedNumerical restNumerical).mono fun result kept => ?_
        refine ⟨kept.1, fun before after beforeOk afterOk => ?_⟩
        simp only [totalDuration, Outcome.bind_ok_iff, Outcome.pure_ok_iff] at afterOk
        obtain ⟨first, firstOk, others, othersOk, rfl⟩ := afterOk
        have isZero : number = 0 := by simpa [Scalar.isZero, found] using empty
        rw [only first firstOk, isZero, zero_add]
        exact kept.2 before others beforeOk othersOk
      · refine (ih _ (join_part_numerical reversedNumerical partNumerical) restNumerical).mono
          fun result kept => ?_
        refine ⟨kept.1, fun before after beforeOk afterOk => ?_⟩
        simp only [totalDuration, Outcome.bind_ok_iff, Outcome.pure_ok_iff] at afterOk
        obtain ⟨first, firstOk, others, othersOk, rfl⟩ := afterOk
        have grown : totalDuration bindings (part :: reversed) = .ok (first + before) := by
          simp only [totalDuration, Outcome.bind_ok_iff, Outcome.pure_ok_iff]
          exact ⟨first, firstOk, before, beforeOk, rfl⟩
        rw [← add_assoc, add_comm before first]
        exact kept.2 _ others (join_part_lasts reversedNumerical partNumerical _ grown) othersOk

theorem concatenate_keeps {parts : List Waveform} (numerical : ∀ part ∈ parts, part.Numerical) :
    Keeps (Steady bindings) (concatenate parts) (Replaces bindings (.append parts)) := by
  unfold concatenate
  refine (join_parts_keeps _ [] (by simp) (splice_parts_numerical numerical)).bind
    fun reversed kept => ?_
  obtain ⟨reversedNumerical, total⟩ := kept
  have lasts : ∀ length, (Waveform.append parts).duration bindings = .ok length →
      totalDuration bindings reversed = .ok length := by
    intro length wholeOk
    have spliced := splice_parts_last parts length wholeOk
    have joined := total 0 length rfl spliced
    rwa [zero_add] at joined
  split
  case h_1 =>
      refine .pure ⟨(numerical_constant_iff _ _).2 ⟨⟨0, rfl⟩, 0, rfl⟩, fun length wholeOk => ?_⟩
      obtain rfl : 0 = length := Except.ok.inj (lasts length wholeOk)
      exact (constant_duration_ok_iff rfl 0).2 ⟨rfl, le_rfl⟩
  case h_2 part =>
      refine .pure ⟨reversedNumerical part (by simp), fun length wholeOk => ?_⟩
      exact (total_duration_single_iff _ _).1 (lasts length wholeOk)
  case h_3 single _ =>
      refine .pure ⟨(numerical_append_iff _).2 ⟨by simpa using single, fun part member =>
        reversedNumerical part (List.mem_reverse.1 member)⟩, fun length wholeOk => ?_⟩
      exact total_duration_reverse (lasts length wholeOk)

theorem keep_waveform_steady {given result : Waveform} {memo : Memo} (fixed : given.Fixed)
    (replaces : Replaces bindings given result) (steady : Steady bindings memo) :
    Steady bindings (keepWaveform given result memo) := by
  have resultFixed := replaces.numerical.fixed
  have itself : Replaces bindings result result := replaces_itself replaces.numerical
  refine ⟨steady.scalars, ?_⟩
  refine (steady.waveforms.insert ⟨fixed, replaces⟩ ?_).insert ⟨resultFixed, itself⟩ ?_
  · exact fun other _ known equal => ⟨known.1, replaces.of_same fixed known.1 equal⟩
  · exact fun other _ known equal => ⟨known.1, itself.of_same resultFixed known.1 equal⟩

theorem remember_waveform_keeps {α : Type} {given : Waveform} {parts : Simplifying α}
    {simplify : α → Simplifying Waveform} {good : α → Prop} (fixed : given.Fixed)
    (partsKeep : Keeps (Steady bindings) parts good)
    (simplifyKeeps : ∀ canonicalParts, good canonicalParts →
      Keeps (Steady bindings) (simplify canonicalParts) (Replaces bindings given)) :
    Keeps (Steady bindings) (rememberWaveform given parts simplify) (Replaces bindings given) := by
  apply Keeps.remembering _ _ partsKeep simplifyKeeps
  · intro memo steady known found
    obtain ⟨other, equal, otherFixed, replaces⟩ := steady.waveforms.find found
    exact ⟨replaces.numerical, fun length lasts => replaces.lasts length
      ((duration_iff_of_same bindings given other fixed otherFixed equal length).1 lasts)⟩
  · intro result replaces memo steady
    exact keep_waveform_steady fixed replaces steady

theorem total_duration_replaced {parts results : List Waveform}
    (replace : List.Forall₂ (Replaces bindings) parts results) (total : Decimal)
    (lasts : totalDuration bindings parts = .ok total) :
    totalDuration bindings results = .ok total := by
  obtain ⟨values, each, rfl⟩ := (total_duration_ok_iff parts total).1 lasts
  refine (total_duration_ok_iff results _).2 ⟨values, ?_, rfl⟩
  clear lasts
  induction replace generalizing values with
  | nil =>
      cases each
      exact List.Forall₂.nil
  | cons replaces _ ih =>
      cases each with
      | cons partLasts others =>
          exact List.Forall₂.cons (replaces.lasts _ partLasts) (ih _ others)

theorem leaf_times {given : Waveform} {time length : Scalar}
    (leaf : given.duration bindings = leafDuration bindings time)
    (settles : Settles bindings time length) : Times bindings given length := by
  obtain ⟨number, found, only⟩ := settles
  refine ⟨number, found, fun value lasts => only value ?_⟩
  rw [leaf, leaf_duration_ok_iff] at lasts
  exact lasts.1

theorem times_leaf {given result : Waveform} {length : Scalar} (times : Times bindings given length)
    (leaf : result.duration bindings = leafDuration bindings length) (total : Decimal)
    (lasts : given.duration bindings = .ok total) : result.duration bindings = .ok total := by
  obtain ⟨number, found, only⟩ := times
  rw [leaf, leaf_duration_ok_iff, (number_known found).evaluates, only total lasts]
  exact ⟨rfl, by rw [← only total lasts]; exact duration_nonneg lasts⟩

theorem settles_all_valued {operands results : List Scalar}
    (settle : List.Forall₂ (Settles bindings) operands results) :
    ∀ result ∈ results, ∃ number, result.value? = some number := by
  intro result member
  obtain ⟨operand, _, number, found, _⟩ := Outcome.source_of_mem settle member
  exact ⟨number, found⟩

theorem ramp_replaces {given : Waveform} {start stop length : Scalar}
    (startValued : ∃ number, start.value? = some number)
    (stopValued : ∃ number, stop.value? = some number) (times : Times bindings given length) :
    Replaces bindings given (ramp start stop length) := by
  unfold ramp
  split_ifs
  · exact constant_replaces startValued times
  · refine ⟨?_, times_leaf times rfl⟩
    obtain ⟨number, found, _⟩ := times
    rw [numerical_iff]
    simpa [Waveform.scalars, children] using ⟨startValued, stopValued, number, found⟩

theorem poly_replaces {given : Waveform} {coefficients : List Scalar} {length : Scalar}
    (valued : ∀ coefficient ∈ coefficients, ∃ number, coefficient.value? = some number)
    (times : Times bindings given length) : Replaces bindings given (poly coefficients length) := by
  unfold poly
  split
  · exact constant_replaces ⟨0, rfl⟩ times
  · exact constant_replaces (valued _ (by simp)) times
  · refine ⟨?_, times_leaf times rfl⟩
    obtain ⟨number, found, _⟩ := times
    rw [numerical_iff]
    simp only [Waveform.scalars, children]
    grind

theorem fill_keeps {given : FillValue} (fixed : ∀ scalar ∈ given.scalars, scalar.Fixed) :
    Keeps (Steady bindings) (fill given) fun result =>
      ∀ scalar ∈ result.scalars, ∃ number, scalar.value? = some number := by
  cases given with
  | explicit value =>
      refine (scalar_keeps value (fixed value (by simp [FillValue.scalars]))).bind
        fun value' settles => .pure ?_
      obtain ⟨number, found, _⟩ := settles
      simpa [FillValue.scalars] using ⟨number, found⟩
  | boundary side => exact .pure (by simp [FillValue.scalars])

theorem waveform_keeps (given : Waveform) (fixed : given.Fixed) :
    Keeps (Steady bindings) (waveform given) (Replaces bindings given) := by
  obtain ⟨own, inside⟩ := (fixed_iff given).1 fixed
  induction given using Waveform.parts_induction with
  | constant value time =>
      rw [waveform]
      refine remember_waveform_keeps fixed (.pure trivial) fun _ (_ : True) => ?_
      refine (scalar_keeps value (own value (by simp [Waveform.scalars]))).bind fun value' valueSettles => ?_
      refine (scalar_keeps time (own time (by simp [Waveform.scalars]))).bind fun time' timeSettles => ?_
      obtain ⟨number, found, _⟩ := valueSettles
      exact .pure (constant_replaces ⟨number, found⟩ (leaf_times rfl timeSettles))
  | ramp start stop time =>
      rw [waveform]
      refine remember_waveform_keeps fixed (.pure trivial) fun _ (_ : True) => ?_
      refine (scalar_keeps start (own start (by simp [Waveform.scalars]))).bind fun start' startSettles => ?_
      refine (scalar_keeps stop (own stop (by simp [Waveform.scalars]))).bind fun stop' stopSettles => ?_
      refine (scalar_keeps time (own time (by simp [Waveform.scalars]))).bind fun time' timeSettles => ?_
      obtain ⟨first, firstFound, _⟩ := startSettles
      obtain ⟨last, lastFound, _⟩ := stopSettles
      exact .pure (ramp_replaces ⟨first, firstFound⟩ ⟨last, lastFound⟩ (leaf_times rfl timeSettles))
  | poly coefficients time =>
      rw [waveform]
      refine remember_waveform_keeps fixed (.pure trivial) fun _ (_ : True) => ?_
      refine (scalars_keep fun coefficient member => scalar_keeps coefficient
        (own coefficient (by simp [Waveform.scalars, member]))).bind fun coefficients' settle => ?_
      refine (scalar_keeps time (own time (by simp [Waveform.scalars]))).bind fun time' timeSettles => ?_
      exact .pure (poly_replaces (settles_all_valued settle) (leaf_times rfl timeSettles))
  | native name function time parameters =>
      rw [waveform]
      refine remember_waveform_keeps fixed (.pure trivial) fun _ (_ : True) => ?_
      refine (scalar_keeps time (own time (by simp [Waveform.scalars]))).bind fun time' timeSettles => ?_
      refine (scalars_keep fun parameter member => scalar_keeps parameter
        (own parameter (by simp [Waveform.scalars, member]))).bind fun parameters' settle => .pure ?_
      have valued := settles_all_valued settle
      refine ⟨?_, times_leaf (leaf_times rfl timeSettles) rfl⟩
      obtain ⟨number, found, _⟩ := timeSettles
      rw [numerical_iff]
      simp only [Waveform.scalars, children]
      grind
  | negative inner ih =>
      rw [waveform]
      have innerFixed := inside inner (by simp [children])
      obtain ⟨innerOwn, innerInside⟩ := (fixed_iff inner).1 innerFixed
      refine remember_waveform_keeps fixed (ih innerFixed innerOwn innerInside)
        fun inner' innerReplaces => ?_
      exact (negate_keeps innerReplaces.numerical).mono fun result replaces =>
        replaces.trans innerReplaces.lasts
  | add left right leftIh rightIh =>
      rw [waveform]
      have leftFixed := inside left (by simp [children])
      have rightFixed := inside right (by simp [children])
      obtain ⟨leftOwn, leftInside⟩ := (fixed_iff left).1 leftFixed
      obtain ⟨rightOwn, rightInside⟩ := (fixed_iff right).1 rightFixed
      refine remember_waveform_keeps fixed ((leftIh leftFixed leftOwn leftInside).pair
        (rightIh rightFixed rightOwn rightInside)) ?_
      rintro ⟨left', right'⟩ ⟨leftReplaces, rightReplaces⟩
      refine (add_keeps left' right' leftReplaces.numerical rightReplaces.numerical).mono
        fun result replaces => replaces.trans fun length lasts => ?_
      obtain ⟨first, second, firstLasts, secondLasts, rfl⟩ := (add_duration_ok_iff _ _ _).1 lasts
      exact (add_duration_ok_iff _ _ _).2 ⟨first, second, leftReplaces.lasts first firstLasts,
        rightReplaces.lasts second secondLasts, rfl⟩
  | scale factor inner ih =>
      rw [waveform]
      have innerFixed := inside inner (by simp [children])
      obtain ⟨innerOwn, innerInside⟩ := (fixed_iff inner).1 innerFixed
      refine remember_waveform_keeps fixed (ih innerFixed innerOwn innerInside)
        fun inner' innerReplaces => ?_
      refine (scalar_keeps factor (own factor (by simp [Waveform.scalars]))).bind fun factor' settles => ?_
      obtain ⟨number, found, _⟩ := settles
      exact (scale_keeps ⟨number, found⟩ innerReplaces.numerical).mono fun result replaces =>
        replaces.trans innerReplaces.lasts
  | slice inner bounds ih =>
      rw [waveform]
      have innerFixed := inside inner (by simp [children])
      obtain ⟨innerOwn, innerInside⟩ := (fixed_iff inner).1 innerFixed
      refine remember_waveform_keeps fixed (ih innerFixed innerOwn innerInside)
        fun inner' innerReplaces => ?_
      refine (interval_keeps bounds own).bind fun bounds' settles => ?_
      obtain ⟨⟨start, startFound, startOnly⟩, stop, stopFound, stopOnly⟩ := settles
      have bounded := (bounded_iff bounds').2 ⟨⟨start, startFound⟩, stop, stopFound⟩
      refine (cut_keeps bounded inner' innerReplaces.numerical).mono fun result replaces =>
        replaces.trans fun length lasts => ?_
      obtain ⟨extent, startValue, stopValue, extentOk, startOk, stopOk, lengthOk⟩ :=
        (slice_duration_ok_iff _ _ _).1 lasts
      refine (slice_duration_ok_iff _ _ _).2 ⟨extent, startValue, stopValue,
        innerReplaces.lasts extent extentOk, ?_, ?_, lengthOk⟩
      · rw [startOnly startValue startOk]
        exact eval_bound_number startFound
      · rw [stopOnly stopValue stopOk]
        exact eval_bound_number stopFound
  | append parts ih =>
      rw [waveform, waveforms_eq_mapM]
      have each : ∀ part ∈ parts,
          Keeps (Steady bindings) (waveform part) (Replaces bindings part) := by
        intro part member
        have partFixed := inside part member
        obtain ⟨partOwn, partInside⟩ := (fixed_iff part).1 partFixed
        exact ih part member partFixed partOwn partInside
      refine remember_waveform_keeps fixed (Keeps.mapM each) fun parts' replace => ?_
      have numerical : ∀ part' ∈ parts', part'.Numerical := by
        intro part' member
        obtain ⟨part, _, replaces⟩ := Outcome.source_of_mem replace member
        exact replaces.numerical
      exact (concatenate_keeps numerical).mono fun result replaces =>
        replaces.trans (total_duration_replaced replace)
  | record name inner side ih =>
      rw [waveform]
      have innerFixed := inside inner (by simp [children])
      obtain ⟨innerOwn, innerInside⟩ := (fixed_iff inner).1 innerFixed
      refine remember_waveform_keeps fixed (ih innerFixed innerOwn innerInside)
        fun inner' innerReplaces => .pure ⟨?_, innerReplaces.lasts⟩
      rw [numerical_iff]
      simpa [Waveform.scalars, children] using innerReplaces.numerical
  | sample inner step interpolation ih =>
      rw [waveform]
      have innerFixed := inside inner (by simp [children])
      obtain ⟨innerOwn, innerInside⟩ := (fixed_iff inner).1 innerFixed
      refine remember_waveform_keeps fixed (ih innerFixed innerOwn innerInside)
        fun inner' innerReplaces => ?_
      refine (scalar_keeps step (own step (by simp [Waveform.scalars]))).bind fun step' settles =>
        .pure ⟨?_, innerReplaces.lasts⟩
      obtain ⟨number, found, _⟩ := settles
      rw [numerical_iff]
      simpa [Waveform.scalars, children] using ⟨⟨number, found⟩, innerReplaces.numerical⟩
  | smooth inner radius kernel ih =>
      rw [waveform]
      have innerFixed := inside inner (by simp [children])
      obtain ⟨innerOwn, innerInside⟩ := (fixed_iff inner).1 innerFixed
      refine remember_waveform_keeps fixed (ih innerFixed innerOwn innerInside)
        fun inner' innerReplaces => ?_
      refine (scalar_keeps radius (own radius (by simp [Waveform.scalars]))).bind fun radius' settles =>
        .pure ⟨?_, innerReplaces.lasts⟩
      obtain ⟨number, found, _⟩ := settles
      rw [numerical_iff]
      simpa [Waveform.scalars, children] using ⟨⟨number, found⟩, innerReplaces.numerical⟩
  | aligned inner alignment value ih =>
      rw [waveform]
      have innerFixed := inside inner (by simp [children])
      obtain ⟨innerOwn, innerInside⟩ := (fixed_iff inner).1 innerFixed
      refine remember_waveform_keeps fixed (ih innerFixed innerOwn innerInside)
        fun inner' innerReplaces => ?_
      refine (fill_keeps own).bind fun value' valued => .pure ⟨?_, innerReplaces.lasts⟩
      rw [numerical_iff]
      exact ⟨⟨by simp, valued⟩, by simpa [children] using innerReplaces.numerical⟩

end Analog.Canonical
