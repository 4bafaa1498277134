import Analog.Proofs.SimpleWaveforms

/-!
# Canonical waveforms are simple

What each rule makes of simple waveforms is simple, and has no more nodes than it is given.
Some rules build new nodes out of pieces of waveforms that are simple already, and leave
these to other rules. As everything that is remembered is simple too, so is every canonical
form.
-/

set_option autoImplicit false

namespace Analog.Canonical

open Waveform

variable {waveformRelation : Waveform → Waveform → Prop}

theorem scalar_simple (given : Scalar) :
    Keeps (Remembers Trusted waveformRelation) (scalar given) Scalar.Simple :=
  (scalar_ends given).keeps.mono fun _ trusted => trusted.simple

theorem scalars_simple (given : List Scalar) :
    Keeps (Remembers Trusted waveformRelation) (scalars given) fun results =>
      ∀ result ∈ results, result.Simple := by
  refine (scalars_end fun operand _ => scalar_ends operand).keeps.mono
    fun results trusted result member => ?_
  obtain ⟨_, _, one⟩ := Outcome.source_of_mem trusted member
  exact one.simple

theorem interval_simple (given : Interval) :
    Keeps (Remembers Trusted waveformRelation) (interval given) fun bounds =>
      ∀ bound ∈ bounds.bounds, bound.Simple := by
  refine (scalar_bound_ends fun bound _ => scalar_ends bound).keeps.bind fun start startTrusted => ?_
  refine (scalar_bound_ends fun bound _ => scalar_ends bound).keeps.bind fun stop stopTrusted =>
    .pure ?_
  exact (Interval.each_iff _).2
    ⟨bound_simple_of_trusted startTrusted, bound_simple_of_trusted stopTrusted⟩

theorem fill_simple (given : FillValue) :
    Keeps (Remembers Trusted waveformRelation) (fill given) fun result =>
      ∀ scalar ∈ result.scalars, scalar.Simple := by
  cases given with
  | explicit value =>
      refine (scalar_simple value).bind fun value' simple => .pure ?_
      simpa [FillValue.scalars] using simple
  | boundary side => exact .pure (by simp [FillValue.scalars])

/-- A canonical duration is simple, and an equal of that which the waveform lasts. -/
theorem duration_lasts {given : Waveform} (tidied : given.Each (·.tidy = true)) :
    Keeps (Remembers Trusted waveformRelation) (duration given) fun length =>
      length.Simple ∧ ∃ form, LastsFor given form ∧ length.Alike form := by
  refine (scalar_ends _).keeps.mono fun length trusted => ⟨trusted.simple, ?_⟩
  exact trusted.form (symbolic_duration_each Scalar.tidy_family given tidied)

/-- A simple waveform that has no more than some number of nodes. -/
structure Trimmed (bound : Nat) (result : Waveform) : Prop where
  simple : result.Simple
  size : result.size ≤ bound

theorem Trimmed.mono {bound larger : Nat} {result : Waveform} (trimmed : Trimmed bound result)
    (ordered : bound ≤ larger) : Trimmed larger result :=
  ⟨trimmed.simple, trimmed.size.trans ordered⟩

theorem constant_trimmed {value length : Scalar} {bound : Nat} (valueSimple : value.Simple)
    (lengthSimple : length.Simple) : Trimmed (1 + bound) (.constant value length) :=
  ⟨(constant_simple_iff _ _).2 ⟨valueSimple, lengthSimple⟩, Nat.le_add_right _ _⟩

theorem scale_trimmed {factor : Scalar} {given : Waveform} (factorSimple : factor.Simple)
    (simple : given.Simple) :
    Keeps (Remembers Trusted waveformRelation) (scale factor given) (Trimmed (1 + given.size)) := by
  fun_induction scale factor given with
  | case1 factor given zero =>
      exact (duration_lasts simple.tidied).bind fun length lasts =>
        .pure (constant_trimmed (Scalar.literal_simple 0) lasts.1)
  | case2 => exact .pure ⟨simple, Nat.le_add_left _ _⟩
  | case3 factor _ _ innerFactor inner ih =>
      obtain ⟨_, innerFactorSimple, innerSimple⟩ := (scale_simple_iff _ _).1 simple
      refine (ih (product_simple factorSimple innerFactorSimple) innerSimple).mono
        fun result trimmed => trimmed.mono ?_
      rw [size_scale]
      omega
  | case4 factor _ _ value length =>
      obtain ⟨valueSimple, lengthSimple⟩ := (constant_simple_iff _ _).1 simple
      exact .pure (constant_trimmed (product_simple factorSimple valueSimple) lengthSimple)
  | case5 factor notZero notOne given otherThanScale otherThanConstant =>
      refine .pure ⟨(scale_simple_iff _ _).2 ⟨⟨Bool.eq_false_iff.2 notZero,
        Bool.eq_false_iff.2 notOne, not_scale otherThanScale, not_constant otherThanConstant⟩,
        factorSimple, simple⟩, (size_scale _ _).le⟩

theorem negate_trimmed {given : Waveform} (simple : given.Simple) :
    Keeps (Remembers Trusted waveformRelation) (negate given) (Trimmed (1 + given.size)) := by
  unfold negate
  split
  case h_1 inner =>
      refine .pure ⟨((Waveform.negative_simple_iff _).1 simple).2, ?_⟩
      rw [size_negative]
      omega
  case h_2 value length =>
      obtain ⟨valueSimple, lengthSimple⟩ := (constant_simple_iff _ _).1 simple
      exact .pure (constant_trimmed (negative_simple valueSimple) lengthSimple)
  case h_3 factor inner =>
      have negated (notNegative : ∀ value, factor.value? = some value → value.isNegative = false) :
          Trimmed (1 + (Waveform.scale factor inner).size) (.negative (.scale factor inner)) := by
        refine ⟨(Waveform.negative_simple_iff _).2 ⟨⟨rfl, rfl, ?_⟩, simple⟩, (size_negative _).le⟩
        rintro _ _ value ⟨⟩ found
        exact notNegative value found
      split
      case h_1 value found =>
          split_ifs with isNegative
          · obtain ⟨_, _, innerSimple⟩ := (scale_simple_iff _ _).1 simple
            refine (scale_trimmed (Scalar.literal_simple _) innerSimple).mono
              fun result trimmed => trimmed.mono ?_
            rw [size_scale]
            omega
          · refine .pure (negated fun other otherFound => ?_)
            rw [found, Option.some.injEq] at otherFound
            rw [← otherFound]
            exact Bool.eq_false_iff.2 isNegative
      case h_2 notNumber =>
          exact .pure (negated fun value found => absurd (notNumber.symm.trans found) (by simp))
  case h_4 otherThanNegation otherThanConstant otherThanScale =>
      refine .pure ⟨(Waveform.negative_simple_iff _).2 ⟨⟨Waveform.not_negation otherThanNegation,
        not_constant otherThanConstant, ?_⟩, simple⟩, (size_negative _).le⟩
      rintro factor scaled _ rfl
      exact (otherThanScale factor scaled rfl).elim

theorem is_redundant_counts {given other : Waveform} (simple : given.Simple)
    (otherSimple : other.Simple) :
    Keeps (Remembers Trusted waveformRelation) (isRedundant given other) fun redundant =>
      redundant = false → Counts given other := by
  unfold isRedundant
  split
  case h_1 value length =>
      obtain ⟨_, lengthSimple⟩ := (constant_simple_iff _ _).1 simple
      split_ifs with empty zero
      · exact .pure (by simp)
      · refine (duration_lasts otherSimple.tidied).bind fun otherLength lasts => ?_
        obtain ⟨_, form, otherLasts, alike⟩ := lasts
        have counts (outlasts : length.Outlasts otherLength) :
            Counts (.constant value length) other := by
          rintro _ _ ⟨⟩
          exact ⟨Bool.eq_false_iff.2 empty, fun _ => ⟨form, otherLasts,
            outlasts.of_alike (.refl lengthSimple.tidied) alike⟩⟩
        split_ifs with equal
        · exact .pure (by simp)
        · split
          case h_1 shorter longer found otherFound =>
              refine .pure fun further => counts ⟨Bool.eq_false_iff.2 equal, ?_⟩
              intro first second firstFound secondFound
              rw [found, Option.some.injEq] at firstFound
              rw [otherFound, Option.some.injEq] at secondFound
              rw [← firstFound, ← secondFound]
              exact not_le.1 (of_decide_eq_false further)
          case h_2 notBoth =>
              exact .pure fun _ => counts ⟨Bool.eq_false_iff.2 equal, fun first second firstFound
                secondFound => (notBoth first second firstFound secondFound).elim⟩
      · refine .pure fun _ => ?_
        rintro _ _ ⟨⟩
        exact ⟨Bool.eq_false_iff.2 empty, fun isZero => absurd isZero zero⟩
  case h_2 otherThanConstant =>
      exact .pure fun _ value length same => (otherThanConstant value length same).elim

/-- A sum of which nothing remains to be checked but the waveform inside the right operand. -/
theorem plain_sum_trimmed {left right : Waveform} (leftSimple : left.Simple)
    (rightSimple : right.Simple)
    (reduced : (∀ factor inner, right = .scale factor inner → inner.same left = false) →
      (Waveform.add left right).Reduced) :
    Keeps (Remembers Trusted waveformRelation) (plainSum left right)
      (Trimmed (1 + (left.size + right.size))) := by
  have added (rightInner : ∀ factor inner, right = .scale factor inner → inner.same left = false) :
      Trimmed (1 + (left.size + right.size)) (.add left right) :=
    ⟨(Waveform.add_simple_iff _ _).2 ⟨reduced rightInner, leftSimple, rightSimple⟩,
      (size_add _ _).le⟩
  unfold plainSum
  split
  case h_1 factor inner =>
      split_ifs with equal
      · obtain ⟨_, factorSimple, _⟩ := (scale_simple_iff _ _).1 rightSimple
        exact (scale_trimmed (sum_simple factorSimple (Scalar.literal_simple 1)) leftSimple).mono
          fun result trimmed => trimmed.mono (by omega)
      · refine .pure (added ?_)
        rintro _ _ ⟨⟩
        exact Bool.eq_false_iff.2 equal
  case h_2 otherThanScale =>
      exact .pure (added fun factor inner same => (otherThanScale factor inner same).elim)

def AddTrimmed (waveformRelation : Waveform → Waveform → Prop) (left right : Waveform) : Prop :=
  left.Simple → right.Simple → Keeps (Remembers Trusted waveformRelation) (add left right)
    (Trimmed (1 + (left.size + right.size)))

/-- One step of the sum; the sum of the waveforms inside two scales is left to the recursion. -/
theorem add_trimmed_step {left right : Waveform}
    (recursion : ∀ factor inner, left = .scale factor inner → ∀ other,
      AddTrimmed waveformRelation inner other) : AddTrimmed waveformRelation left right := by
  intro leftSimple rightSimple
  unfold add
  split_ifs with equal
  · exact (scale_trimmed (Scalar.literal_simple 2) leftSimple).mono fun result trimmed =>
      trimmed.mono (by omega)
  refine (is_redundant_counts leftSimple rightSimple).bind fun leftRedundant leftCounts => ?_
  split_ifs with leftNothing
  · exact .pure ⟨rightSimple, by omega⟩
  refine (is_redundant_counts rightSimple leftSimple).bind fun rightRedundant rightCounts => ?_
  split_ifs with rightNothing
  · exact .pure ⟨leftSimple, by omega⟩
  have counts := And.intro (leftCounts (Bool.eq_false_iff.2 leftNothing))
    (rightCounts (Bool.eq_false_iff.2 rightNothing))
  have different := Bool.eq_false_iff.2 equal
  split
  case h_1 leftValue leftLength rightValue rightLength =>
      obtain ⟨leftValueSimple, leftLengthSimple⟩ := (constant_simple_iff _ _).1 leftSimple
      obtain ⟨rightValueSimple, _⟩ := (constant_simple_iff _ _).1 rightSimple
      split_ifs with sameLength
      · exact .pure (constant_trimmed (sum_simple leftValueSimple rightValueSimple) leftLengthSimple)
      · refine plain_sum_trimmed leftSimple rightSimple fun rightInner =>
          ⟨⟨different, ?_, by rintro _ _ _ _ ⟨⟩, by rintro _ _ ⟨⟩, rightInner⟩, counts⟩
        rintro _ _ _ _ ⟨⟩ ⟨⟩
        exact Bool.eq_false_iff.2 sameLength
  case h_2 leftFactor leftInner rightFactor rightInner =>
      obtain ⟨_, leftFactorSimple, leftInnerSimple⟩ := (scale_simple_iff _ _).1 leftSimple
      obtain ⟨_, rightFactorSimple, rightInnerSimple⟩ := (scale_simple_iff _ _).1 rightSimple
      split_ifs with sameFactor sameInner
      · refine (recursion leftFactor leftInner rfl rightInner leftInnerSimple
          rightInnerSimple).bind fun inner innerTrimmed => ?_
        have innerSize := innerTrimmed.size
        refine (scale_trimmed leftFactorSimple innerTrimmed.simple).mono fun result trimmed =>
          trimmed.mono ?_
        rw [size_scale, size_scale]
        omega
      · refine (scale_trimmed (sum_simple leftFactorSimple rightFactorSimple) leftInnerSimple).mono
          fun result trimmed => trimmed.mono ?_
        rw [size_scale, size_scale]
        omega
      · refine plain_sum_trimmed leftSimple rightSimple fun rightInner =>
          ⟨⟨different, by rintro _ _ _ _ ⟨⟩, ?_, by rintro _ _ _ ⟨⟩, rightInner⟩, counts⟩
        rintro _ _ _ _ ⟨⟩ ⟨⟩
        exact ⟨Bool.eq_false_iff.2 sameFactor, Bool.eq_false_iff.2 sameInner⟩
  case h_3 leftFactor leftInner otherThanScale =>
      obtain ⟨_, leftFactorSimple, _⟩ := (scale_simple_iff _ _).1 leftSimple
      split_ifs with sameInner
      · exact (scale_trimmed (sum_simple leftFactorSimple (Scalar.literal_simple 1)) rightSimple).mono
          fun result trimmed => trimmed.mono (by omega)
      · refine plain_sum_trimmed leftSimple rightSimple fun rightInner =>
          ⟨⟨different, by rintro _ _ _ _ ⟨⟩, ?_, ?_, rightInner⟩, counts⟩
        · rintro _ _ otherFactor otherInner ⟨⟩ same
          exact (otherThanScale otherFactor otherInner same).elim
        · rintro _ _ ⟨⟩ _
          exact Bool.eq_false_iff.2 sameInner
  case h_4 otherThanScale notConstants _ =>
      refine plain_sum_trimmed leftSimple rightSimple fun rightInner =>
        ⟨⟨different, ?_, ?_, ?_, rightInner⟩, counts⟩
      · intro value length otherValue otherLength same otherSame
        exact (notConstants value length otherValue otherLength same otherSame).elim
      · intro factor inner _ _ same _
        exact (otherThanScale factor inner same).elim
      · intro factor inner same _
        exact (otherThanScale factor inner same).elim

theorem add_trimmed (left right : Waveform) : AddTrimmed waveformRelation left right := by
  induction left using Waveform.parts_induction generalizing right with
  | scale factor inner ih =>
      apply add_trimmed_step
      rintro _ _ ⟨⟩ other
      exact ih other
  | _ =>
      apply add_trimmed_step
      rintro _ _ ⟨⟩

def CutTrimmed (waveformRelation : Waveform → Waveform → Prop) (bounds : Interval)
    (given : Waveform) : Prop :=
  given.Simple →
    Keeps (Remembers Trusted waveformRelation) (cut bounds given) (Trimmed (1 + given.size))

/-- One step of a slice; slices inside scales and negations are left to the recursion. -/
theorem cut_trimmed_step {bounds : Interval} {given : Waveform}
    (boundsSimple : ∀ bound ∈ bounds.bounds, bound.Simple)
    (insideScale : ∀ factor inner, given = .scale factor inner →
      CutTrimmed waveformRelation bounds inner)
    (insideNegation : ∀ inner, given = .negative inner → CutTrimmed waveformRelation bounds inner) :
    CutTrimmed waveformRelation bounds given := by
  intro simple
  obtain ⟨startSimple, stopSimple⟩ := (Interval.each_iff bounds).1 boundsSimple
  unfold cut
  refine (duration_lasts simple.tidied).bind fun length lasts => ?_
  split_ifs with covers
  · exact .pure ⟨simple, Nat.le_add_left _ _⟩
  split
  case h_1 factor inner =>
      obtain ⟨_, factorSimple, innerSimple⟩ := (scale_simple_iff _ _).1 simple
      refine (insideScale factor inner rfl innerSimple).bind fun inner' innerTrimmed => ?_
      refine (scale_trimmed factorSimple innerTrimmed.simple).mono fun result trimmed =>
        trimmed.mono ?_
      rw [size_scale]
      exact Nat.add_le_add_left innerTrimmed.size 1
  case h_2 inner =>
      obtain ⟨_, innerSimple⟩ := (Waveform.negative_simple_iff _).1 simple
      refine (insideNegation inner rfl innerSimple).bind fun inner' innerTrimmed => ?_
      refine (negate_trimmed innerTrimmed.simple).mono fun result trimmed => trimmed.mono ?_
      rw [size_negative]
      exact Nat.add_le_add_left innerTrimmed.size 1
  case h_3 value extent =>
      obtain ⟨valueSimple, extentSimple⟩ := (constant_simple_iff _ _).1 simple
      refine (Keeps.lift fun length' made =>
        slice_simple extentSimple startSimple stopSimple made).bind fun length' lengthSimple => ?_
      exact .pure (constant_trimmed valueSimple lengthSimple)
  case h_4 otherThanScale otherThanNegation otherThanConstant =>
      obtain ⟨_, form, formLasts, alike⟩ := lasts
      have boundsAlike : bounds.Alike bounds := (Interval.alike_iff _ _).2
        ⟨⟨rfl, rfl⟩, List.forall₂_same.2 fun bound member => .refl (boundsSimple bound member).tidied⟩
      rw [covers_all_alike boundsAlike alike] at covers
      exact .pure ⟨(Waveform.slice_simple_iff _ _).2 ⟨⟨⟨not_scale otherThanScale,
        Waveform.not_negation otherThanNegation, not_constant otherThanConstant⟩, form, formLasts,
        Bool.eq_false_iff.2 covers⟩, boundsSimple, simple⟩, (size_slice _ _).le⟩

theorem cut_trimmed {bounds : Interval} (boundsSimple : ∀ bound ∈ bounds.bounds, bound.Simple)
    (given : Waveform) : CutTrimmed waveformRelation bounds given := by
  induction given using Waveform.parts_induction with
  | scale factor inner ih =>
      apply cut_trimmed_step boundsSimple
      · rintro _ _ ⟨⟩
        exact ih
      · rintro _ ⟨⟩
  | negative inner ih =>
      apply cut_trimmed_step boundsSimple
      · rintro _ _ ⟨⟩
      · rintro _ ⟨⟩
        exact ih
  | _ =>
      apply cut_trimmed_step boundsSimple
      · rintro _ _ ⟨⟩
      · rintro _ ⟨⟩

theorem splice_parts_simple {parts : List Waveform} (simple : ∀ part ∈ parts, part.Simple) :
    ∀ part ∈ parts.flatMap spliceParts, part.Simple ∧ part.isAppend = false := by
  intro part member
  obtain ⟨whole, wholeMember, found⟩ := List.mem_flatMap.1 member
  have wholeSimple := simple whole wholeMember
  cases whole with
  | append inner =>
      obtain ⟨joined, innerSimple⟩ := (append_simple_iff _).1 wholeSimple
      exact ⟨innerSimple part found, (joined.alone part found).1⟩
  | _ =>
      obtain rfl := List.mem_singleton.1 found
      exact ⟨wholeSimple, rfl⟩

/-- A part is joined to the one before it if both are constants of equal value. -/
theorem join_part_cases (reversed : List Waveform) (part : Waveform) :
    (joinPart reversed part = part :: reversed ∧ ∀ last ∈ reversed.head?, joins last part = false) ∨
      ∃ value length rest nextValue nextLength, reversed = .constant value length :: rest ∧
        part = .constant nextValue nextLength ∧ value.same nextValue = true ∧
        joinPart reversed part = .constant value (sum length nextLength) :: rest := by
  unfold joinPart
  split
  case h_1 value length rest nextValue nextLength =>
      split_ifs with equal
      · exact Or.inr ⟨value, length, rest, nextValue, nextLength, rfl, rfl, equal, rfl⟩
      · refine Or.inl ⟨rfl, ?_⟩
        rintro _ ⟨⟩
        exact Bool.eq_false_iff.2 equal
  case h_2 notConstants =>
      refine Or.inl ⟨rfl, fun last isLast => ?_⟩
      obtain ⟨rest, rfl⟩ := List.head?_eq_some_iff.1 isLast
      unfold joins
      split
      · exact (notConstants _ _ _ _ _ rfl rfl).elim
      · rfl

/-- Parts joined so far, the last one first. -/
structure JoinedBefore (reversed : List Waveform) : Prop where
  simple : ∀ part ∈ reversed, part.Simple
  alone : ∀ part ∈ reversed, part.StandsAlone
  chain : reversed.IsChain fun next part => joins part next = false

theorem constant_stands_alone {value length : Scalar} (simple : length.Simple) :
    (Waveform.constant value length).StandsAlone :=
  ⟨rfl, length, direct_of_simple length simple, fun _ => rfl⟩

theorem joins_constant (part : Waveform) (value length other : Scalar) :
    joins part (.constant value length) = joins part (.constant value other) := by
  cases part <;> rfl

theorem JoinedBefore.join {reversed : List Waveform} {part : Waveform}
    (before : JoinedBefore reversed) (simple : part.Simple) (alone : part.StandsAlone) :
    JoinedBefore (joinPart reversed part) := by
  rcases join_part_cases reversed part with ⟨same, apart⟩ |
    ⟨value, length, rest, nextValue, nextLength, rfl, rfl, _, same⟩
  · rw [same]
    exact ⟨List.forall_mem_cons.2 ⟨simple, before.simple⟩,
      List.forall_mem_cons.2 ⟨alone, before.alone⟩, List.isChain_cons.2 ⟨apart, before.chain⟩⟩
  · rw [same]
    obtain ⟨lastSimple, restSimple⟩ := List.forall_mem_cons.1 before.simple
    obtain ⟨_, restAlone⟩ := List.forall_mem_cons.1 before.alone
    obtain ⟨apart, restChain⟩ := List.isChain_cons.1 before.chain
    obtain ⟨valueSimple, lengthSimple⟩ := (constant_simple_iff _ _).1 lastSimple
    obtain ⟨_, nextLengthSimple⟩ := (constant_simple_iff _ _).1 simple
    have totalSimple := sum_simple lengthSimple nextLengthSimple
    refine ⟨List.forall_mem_cons.2 ⟨(constant_simple_iff _ _).2 ⟨valueSimple, totalSimple⟩,
      restSimple⟩, List.forall_mem_cons.2 ⟨constant_stands_alone totalSimple, restAlone⟩,
      List.isChain_cons.2 ⟨fun earlier isLast => ?_, restChain⟩⟩
    rw [joins_constant earlier value _ length]
    exact apart earlier isLast

def emptyConstants (parts : List Waveform) : Nat :=
  parts.countP (·.isEmptyConstant)

theorem empty_constants_append (before after : List Waveform) :
    emptyConstants (before ++ after) = emptyConstants before + emptyConstants after :=
  List.countP_append

theorem splice_parts_size (parts : List Waveform) :
    sizes (parts.flatMap spliceParts) ≤ sizes parts := by
  induction parts with
  | nil => exact le_rfl
  | cons part rest ih =>
      have spliced : sizes (spliceParts part) ≤ part.size := by
        unfold spliceParts
        split
        · rw [size_append]
          omega
        · simp
      rw [List.flatMap_cons, sizes_append, sizes_cons]
      omega

theorem empty_constants_spliced (parts : List Waveform) :
    emptyConstants parts ≤ emptyConstants (parts.flatMap spliceParts) := by
  induction parts with
  | nil => exact le_rfl
  | cons part rest ih =>
      have spliced : emptyConstants [part] ≤ emptyConstants (spliceParts part) := by
        unfold spliceParts
        split
        · exact Nat.zero_le _
        · exact le_rfl
      rw [List.flatMap_cons, ← List.singleton_append, empty_constants_append,
        empty_constants_append]
      exact add_le_add spliced ih

theorem join_part_size (reversed : List Waveform) (part : Waveform) :
    sizes (joinPart reversed part) ≤ part.size + sizes reversed := by
  rcases join_part_cases reversed part with ⟨same, _⟩ |
    ⟨value, length, rest, nextValue, nextLength, rfl, rfl, _, same⟩
  · rw [same, sizes_cons]
  · rw [same]
    simp

theorem empty_lasts {part : Waveform} {length : Scalar} (simple : part.Simple)
    (lasts : LastsFor part length) (empty : part.isEmptyConstant = true) : length.isZero = true := by
  cases part with
  | constant value own =>
      rw [lasts.of_constant simple]
      exact empty
  | _ => cases empty

/-- All parts joined from left to right. Constants that are empty are left out, but those that come
of joining others remain. -/
theorem join_parts_joined (parts reversed : List Waveform) (before : JoinedBefore reversed)
    (each : ∀ part ∈ parts, part.Simple ∧ part.isAppend = false) :
    Keeps (Remembers Trusted waveformRelation) (joinParts reversed parts) fun result =>
      JoinedBefore result ∧ sizes result + emptyConstants parts ≤ sizes reversed + sizes parts := by
  induction parts generalizing reversed with
  | nil => exact .pure ⟨before, le_rfl⟩
  | cons part rest ih =>
      obtain ⟨⟨simple, notAppend⟩, restEach⟩ := List.forall_mem_cons.1 each
      have count : emptyConstants (part :: rest) = emptyConstants [part] + emptyConstants rest :=
        empty_constants_append [part] rest
      unfold joinParts
      rw [count, sizes_cons]
      refine (duration_lasts simple.tidied).bind fun length lasts => ?_
      obtain ⟨_, form, formLasts, alike⟩ := lasts
      split_ifs with empty
      · refine (ih reversed before restEach).mono fun result kept => ⟨kept.1, ?_⟩
        have fewer := kept.2
        have atMostOne : emptyConstants [part] ≤ 1 := List.countP_le_length
        have positive := size_pos part
        omega
      · have alone : part.StandsAlone :=
          ⟨notAppend, form, formLasts, fun zero => absurd (alike.isZero.trans zero) empty⟩
        refine (ih _ (before.join simple alone) restEach).mono fun result kept => ⟨kept.1, ?_⟩
        have fewer := kept.2
        have joinedSize := join_part_size reversed part
        have notEmpty : emptyConstants [part] = 0 := by
          rw [emptyConstants, List.countP_singleton, if_neg]
          exact fun isEmpty => empty (alike.isZero.trans (empty_lasts simple formLasts isEmpty))
        omega

theorem concatenate_trimmed {parts : List Waveform} (simple : ∀ part ∈ parts, part.Simple) :
    Keeps (Remembers Trusted waveformRelation) (concatenate parts) fun result =>
      result.Simple ∧ result.size + emptyConstants parts ≤ 1 + sizes parts := by
  have spliced := splice_parts_size parts
  have count := empty_constants_spliced parts
  unfold concatenate
  refine (join_parts_joined _ [] ⟨by simp, by simp, .nil⟩ (splice_parts_simple simple)).bind
    fun reversed kept => ?_
  obtain ⟨joined, fewer⟩ := kept
  rw [sizes_nil, zero_add] at fewer
  split
  case h_1 =>
      refine .pure ⟨(constant_simple_iff _ _).2
        ⟨Scalar.literal_simple 0, Scalar.literal_simple 0⟩, ?_⟩
      rw [Waveform.zero, size_constant]
      omega
  case h_2 part =>
      rw [sizes_cons, sizes_nil] at fewer
      exact .pure ⟨joined.simple part (by simp), by omega⟩
  case h_3 notNil notSingle =>
      refine .pure ⟨(append_simple_iff _).2 ⟨⟨?_, ?_, ?_⟩, ?_⟩, ?_⟩
      · rw [List.length_reverse]
        match reversed, notNil, notSingle with
        | [], notNil, _ => exact absurd rfl notNil
        | [part], _, notSingle => exact absurd rfl (notSingle part)
        | _ :: _ :: _, _, _ => simp
      · exact fun part member => joined.alone part (List.mem_reverse.1 member)
      · rw [List.isChain_reverse]
        exact joined.chain
      · exact fun part member => joined.simple part (List.mem_reverse.1 member)
      · rw [size_append, sizes_reverse]
        omega

/-- A reduced node with simple scalars and simple waveforms inside it. -/
theorem node_trimmed (node : Waveform) (reduced : node.Reduced)
    (scalarsSimple : ∀ scalar ∈ node.scalars, scalar.Simple)
    (childrenSimple : ∀ child ∈ node.children, child.Simple) :
    Trimmed (1 + sizes node.children) node :=
  ⟨(Waveform.simple_iff _).2 ⟨⟨reduced, scalarsSimple⟩, childrenSimple⟩, (size_eq _).le⟩

theorem ramp_trimmed {start stop length : Scalar} {bound : Nat} (startSimple : start.Simple)
    (stopSimple : stop.Simple) (lengthSimple : length.Simple) :
    Trimmed (1 + bound) (ramp start stop length) := by
  unfold ramp
  split_ifs with level
  · exact constant_trimmed startSimple lengthSimple
  · refine (node_trimmed (.ramp start stop length) (Bool.eq_false_iff.2 level) ?_
      (by simp [children])).mono
      (Nat.le_add_right _ _)
    simpa [Waveform.scalars] using ⟨startSimple, stopSimple, lengthSimple⟩

theorem poly_trimmed {coefficients : List Scalar} {length : Scalar} {bound : Nat}
    (each : ∀ coefficient ∈ coefficients, coefficient.Simple) (lengthSimple : length.Simple) :
    Trimmed (1 + bound) (poly coefficients length) := by
  unfold poly
  split
  case h_1 => exact constant_trimmed (Scalar.literal_simple 0) lengthSimple
  case h_2 value => exact constant_trimmed (each value (by simp)) lengthSimple
  case h_3 notNil notSingle =>
      refine (node_trimmed (.poly coefficients length) ?_ ?_ (by simp [children])).mono
        (Nat.le_add_right _ _)
      · cases coefficients with
        | nil => exact absurd rfl notNil
        | cons value rest =>
            cases rest with
            | nil => exact absurd rfl (notSingle value)
            | cons next rest => simp [Reduced]
      · rw [Waveform.scalars, List.forall_mem_append, List.forall_mem_singleton]
        exact ⟨each, lengthSimple⟩

/-- What a node comes to with the canonical forms of the waveforms inside it. -/
def combine : Waveform → List Waveform → Simplifying Waveform
  | .constant value length, _ => do
    let value' ← scalar value
    let length' ← scalar length
    return .constant value' length'
  | .ramp start stop length, _ => do
    let start' ← scalar start
    let stop' ← scalar stop
    let length' ← scalar length
    return ramp start' stop' length'
  | .poly coefficients length, _ => do
    let coefficients' ← scalars coefficients
    let length' ← scalar length
    return poly coefficients' length'
  | .native name function length parameters, _ => do
    let length' ← scalar length
    let parameters' ← scalars parameters
    return .native name function length' parameters'
  | .negative _, [inner] => negate inner
  | .add _ _, [left, right] => add left right
  | .scale factor _, [inner] => do
    let factor' ← scalar factor
    scale factor' inner
  | .slice _ bounds, [inner] => do
    let bounds' ← interval bounds
    cut bounds' inner
  | .append _, parts => concatenate parts
  | .record name _ side, [inner] => pure (.record name inner side)
  | .sample _ step interpolation, [inner] => do
    let step' ← scalar step
    return .sample inner step' interpolation
  | .smooth _ radius kernel, [inner] => do
    let radius' ← scalar radius
    return .smooth inner radius' kernel
  | .aligned _ alignment value, [inner] => do
    let value' ← fill value
    return .aligned inner alignment value'
  | given, _ => pure given

/-- The waveforms inside a node are worked on first, from left to right. -/
theorem waveform_eq (given : Waveform) :
    waveform given = rememberWaveform given (waveforms given.children) (combine given) := by
  cases given <;>
    simp only [waveform, waveforms, children, combine, rememberWaveform, remembering, pure_bind,
      bind_assoc]

/-- What a node comes to is simple if the canonical forms of the waveforms inside it are, and has
no more nodes than these and one for itself. -/
theorem combine_trimmed (given : Waveform) {parts' : List Waveform}
    (count : parts'.length = given.children.length) (simple : ∀ part' ∈ parts', part'.Simple) :
    Keeps (Remembers Trusted waveformRelation) (combine given parts')
      (Trimmed (1 + sizes parts')) := by
  cases given with
  | constant value length =>
      refine (scalar_simple value).bind fun value' valueSimple => ?_
      refine (scalar_simple length).bind fun length' lengthSimple => .pure ?_
      exact constant_trimmed valueSimple lengthSimple
  | ramp start stop length =>
      refine (scalar_simple start).bind fun start' startSimple => ?_
      refine (scalar_simple stop).bind fun stop' stopSimple => ?_
      exact (scalar_simple length).bind fun length' lengthSimple =>
        .pure (ramp_trimmed startSimple stopSimple lengthSimple)
  | poly coefficients length =>
      refine (scalars_simple coefficients).bind fun coefficients' each => ?_
      exact (scalar_simple length).bind fun length' lengthSimple =>
        .pure (poly_trimmed each lengthSimple)
  | native name function length parameters =>
      refine (scalar_simple length).bind fun length' lengthSimple => ?_
      refine (scalars_simple parameters).bind fun parameters' each => .pure ?_
      exact (node_trimmed (.native name function length' parameters') trivial
        (List.forall_mem_cons.2 ⟨lengthSimple, each⟩) (by simp [children])).mono
        (Nat.le_add_right _ _)
  | negative inner =>
      obtain ⟨inner', rfl⟩ := List.length_eq_one_iff.1 count
      rw [sizes_cons, sizes_nil]
      exact negate_trimmed (simple inner' (by simp))
  | add left right =>
      obtain ⟨left', right', rfl⟩ := List.length_eq_two.1 count
      rw [sizes_cons, sizes_cons, sizes_nil]
      exact add_trimmed left' right' (simple left' (by simp)) (simple right' (by simp))
  | scale factor inner =>
      obtain ⟨inner', rfl⟩ := List.length_eq_one_iff.1 count
      rw [sizes_cons, sizes_nil]
      exact (scalar_simple factor).bind fun factor' factorSimple =>
        scale_trimmed factorSimple (simple inner' (by simp))
  | slice inner bounds =>
      obtain ⟨inner', rfl⟩ := List.length_eq_one_iff.1 count
      rw [sizes_cons, sizes_nil]
      exact (interval_simple bounds).bind fun bounds' boundsSimple =>
        cut_trimmed boundsSimple inner' (simple inner' (by simp))
  | append parts =>
      exact (concatenate_trimmed simple).mono fun result kept => ⟨kept.1, by omega⟩
  | record name inner side =>
      obtain ⟨inner', rfl⟩ := List.length_eq_one_iff.1 count
      exact .pure (node_trimmed (.record name inner' side) trivial (by simp [Waveform.scalars]) simple)
  | sample inner step interpolation =>
      obtain ⟨inner', rfl⟩ := List.length_eq_one_iff.1 count
      refine (scalar_simple step).bind fun step' stepSimple => .pure ?_
      exact node_trimmed (.sample inner' step' interpolation) trivial
        (by simpa [Waveform.scalars] using stepSimple) simple
  | smooth inner radius kernel =>
      obtain ⟨inner', rfl⟩ := List.length_eq_one_iff.1 count
      refine (scalar_simple radius).bind fun radius' radiusSimple => .pure ?_
      exact node_trimmed (.smooth inner' radius' kernel) trivial
        (by simpa [Waveform.scalars] using radiusSimple) simple
  | aligned inner alignment value =>
      obtain ⟨inner', rfl⟩ := List.length_eq_one_iff.1 count
      exact (fill_simple value).bind fun value' valueSimple =>
        .pure (node_trimmed (.aligned inner' alignment value') trivial valueSimple simple)

/-- The memory of work on waveforms, in which everything is simple. -/
abbrev Simplified : Memo → Prop :=
  Remembers Trusted fun _ result => result.Simple

theorem remember_waveform_simple {α : Type} {given : Waveform} {parts : Simplifying α}
    {simplify : α → Simplifying Waveform} {good : α → Prop} (partsKeep : Keeps Simplified parts good)
    (simplifyKeeps : ∀ canonicalParts, good canonicalParts →
      Keeps Simplified (simplify canonicalParts) Waveform.Simple) :
    Keeps Simplified (rememberWaveform given parts simplify) Waveform.Simple := by
  apply Keeps.remembering _ _ partsKeep simplifyKeeps
  · intro memo remembers known found
    obtain ⟨_, _, simple⟩ := remembers.waveforms.find found
    exact simple
  · intro result simple memo remembers
    exact ⟨remembers.scalars, (remembers.waveforms.insert simple fun _ _ _ _ => simple).insert simple
      fun _ _ _ _ => simple⟩

theorem waveform_simple (given : Waveform) :
    Keeps Simplified (waveform given) Waveform.Simple := by
  induction given using Waveform.children_induction with
  | step given ih =>
      rw [waveform_eq, waveforms_eq_mapM]
      refine remember_waveform_simple (Keeps.mapM ih) fun parts' each => ?_
      refine (combine_trimmed given each.length_eq.symm fun part' member => ?_).mono
        fun result trimmed => trimmed.simple
      obtain ⟨_, _, simple⟩ := Outcome.source_of_mem each member
      exact simple

end Analog.Canonical
