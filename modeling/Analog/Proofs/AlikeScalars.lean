import Analog.Proofs.SimpleScalars

/-!
# Rules do not tell equal scalars apart

Scalars may be equal and look different: the operands of minima and maxima are compared as
sets. Applied to equal operands, a rule of simplification gives equal results, or fails with
the same failure.
-/

set_option autoImplicit false

namespace Analog

open Canonical

namespace Scalar

/-- Equal scalars, the minima and maxima of both as their constructors leave them. -/
structure Alike (first second : Scalar) : Prop where
  firstTidy : first.tidy = true
  secondTidy : second.tidy = true
  equal : first.same second = true

theorem Alike.refl {scalar : Scalar} (tidied : scalar.tidy = true) : Alike scalar scalar :=
  ⟨tidied, tidied, same_refl scalar⟩

theorem Alike.symm {first second : Scalar} (alike : Alike first second) : Alike second first :=
  ⟨alike.secondTidy, alike.firstTidy, same_symm first second alike.firstTidy alike.equal⟩

theorem Alike.trans {first second third : Scalar} (alike : Alike first second)
    (next : Alike second third) : Alike first third :=
  ⟨alike.firstTidy, next.secondTidy, same_trans first second third alike.equal next.equal⟩

def Apart (operands : List Scalar) : Prop :=
  operands.Pairwise fun left right => left.same right = false ∧ right.same left = false

theorem apart_of_distinct {operands : List Scalar} (tidied : ∀ operand ∈ operands, operand.tidy = true)
    (different : distinct operands = true) : Apart operands := by
  refine ((distinct_iff _).1 different).imp_of_mem fun {left right} _ rightMember unequal => ?_
  refine ⟨unequal, Bool.eq_false_iff.2 fun equal => ?_⟩
  rw [same_symm right left (tidied right rightMember) equal] at unequal
  cases unequal

theorem Apart.distinct {operands : List Scalar} (apart : Apart operands) : distinct operands = true :=
  (distinct_iff _).2 (apart.imp And.left)

/-- Operands matched one by one with others that are apart are apart themselves. -/
theorem apart_of_matched {operands matched : List Scalar}
    (tidied : ∀ operand ∈ operands, operand.tidy = true)
    (each : List.Forall₂ (fun operand other => operand.same other = true) operands matched)
    (apart : Apart operands) : Apart matched := by
  induction each with
  | nil => exact List.Pairwise.nil
  | @cons operand other rest others equal each ih =>
      obtain ⟨first, later⟩ := List.pairwise_cons.1 apart
      refine List.pairwise_cons.2 ⟨fun another member => ?_,
        ih (fun operand member => tidied operand (by simp [member])) later⟩
      obtain ⟨source, sourceMember, sourceEqual⟩ := Outcome.source_of_mem each member
      obtain ⟨forward, backward⟩ := first source sourceMember
      have back := same_symm operand other (tidied operand (by simp)) equal
      have sourceBack := same_symm source another (tidied source (by simp [sourceMember])) sourceEqual
      constructor
      · refine Bool.eq_false_iff.2 fun same => ?_
        rw [same_trans _ _ _ (same_trans _ _ _ equal same) sourceBack] at forward
        cases forward
      · refine Bool.eq_false_iff.2 fun same => ?_
        rw [same_trans _ _ _ (same_trans _ _ _ sourceEqual same) back] at backward
        cases backward

/-- What equals different operands, and has as many, is tidy if they are. -/
theorem operands_tidy_of_same {operands others : List Scalar}
    (ih : ∀ operand ∈ operands, ∀ other, operand.same other = true → other.tidy = true)
    (tidied : ∀ operand ∈ operands, operand.tidy = true) (different : distinct operands = true)
    (sameLength : operands.length = others.length)
    (within : ∀ operand ∈ operands, ∃ other ∈ others, operand.same other = true) :
    distinct others = true ∧ ∀ other ∈ others, other.tidy = true := by
  have symmetric := fun operand member other => same_symm operand other (tidied operand member)
  obtain ⟨matched, perm, each⟩ := exists_matching_of_distinct operands others
    ((distinct_iff _).1 different) symmetric sameLength within
  constructor
  · have apart := apart_of_matched tidied each (apart_of_distinct tidied different)
    exact Apart.distinct ((perm.pairwise_iff And.symm).1 apart)
  · intro other member
    obtain ⟨operand, operandMember, equal⟩ := Outcome.source_of_mem each (perm.mem_iff.2 member)
    exact ih operand operandMember other equal

theorem bound_tidy_of_same {bound other : Option Scalar}
    (ih : ∀ given ∈ bound, ∀ second, given.same second = true → second.tidy = true)
    (equal : sameBound bound other = true) : tidyBound other = true := by
  rw [same_bound_iff] at equal
  cases equal with
  | none => rfl
  | some equal => exact ih _ rfl _ equal

theorem tidy_of_same (first second : Scalar) (tidied : first.tidy = true)
    (equal : first.same second = true) : second.tidy = true := by
  induction first using Scalar.parts_induction generalizing second with
  | literal value =>
      rw [literal_same_iff] at equal
      rwa [← equal]
  | named name =>
      rw [variable_same_iff] at equal
      rwa [← equal]
  | assigned name value =>
      rw [assigned_same_iff] at equal
      rwa [← equal]
  | negative operand ih =>
      obtain ⟨other, rfl, otherSame⟩ := (negative_same_iff _ _).1 equal
      exact ih other tidied otherSame
  | add left right leftIh rightIh =>
      obtain ⟨_, _, rfl, leftSame, rightSame⟩ := (add_same_iff _ _ _).1 equal
      rw [tidy, Bool.and_eq_true] at tidied ⊢
      exact ⟨leftIh _ tidied.1 leftSame, rightIh _ tidied.2 rightSame⟩
  | mul left right leftIh rightIh =>
      obtain ⟨_, _, rfl, leftSame, rightSame⟩ := (mul_same_iff _ _ _).1 equal
      rw [tidy, Bool.and_eq_true] at tidied ⊢
      exact ⟨leftIh _ tidied.1 leftSame, rightIh _ tidied.2 rightSame⟩
  | div left right leftIh rightIh =>
      obtain ⟨_, _, rfl, leftSame, rightSame⟩ := (div_same_iff _ _ _).1 equal
      rw [tidy, Bool.and_eq_true] at tidied ⊢
      exact ⟨leftIh _ tidied.1 leftSame, rightIh _ tidied.2 rightSame⟩
  | min operands ih =>
      obtain ⟨others, rfl, sameLength, within⟩ := (min_same_iff _ _).1 equal
      rw [tidy, Bool.and_eq_true, tidy_all_iff] at tidied ⊢
      exact operands_tidy_of_same (fun operand member other =>
        ih operand member other (tidied.2 operand member)) tidied.2 tidied.1 sameLength within
  | max operands ih =>
      obtain ⟨others, rfl, sameLength, within⟩ := (max_same_iff _ _).1 equal
      rw [tidy, Bool.and_eq_true, tidy_all_iff] at tidied ⊢
      exact operands_tidy_of_same (fun operand member other =>
        ih operand member other (tidied.2 operand member)) tidied.2 tidied.1 sameLength within
  | slice extent start stop extentIh startIh stopIh =>
      obtain ⟨_, _, _, rfl, startSame, stopSame, extentSame⟩ := (slice_same_iff _ _ _ _).1 equal
      rw [tidy, Bool.and_eq_true, Bool.and_eq_true, tidy_bound_iff, tidy_bound_iff] at tidied
      obtain ⟨⟨extentTidy, startTidy⟩, stopTidy⟩ := tidied
      rw [tidy, extentIh _ extentTidy extentSame,
        bound_tidy_of_same (fun given member other => startIh given member other
          (startTidy given member)) startSame,
        bound_tidy_of_same (fun given member other => stopIh given member other
          (stopTidy given member)) stopSame]
      rfl

theorem alike_of_same {first second : Scalar} (tidied : first.tidy = true)
    (equal : first.same second = true) : Alike first second :=
  ⟨tidied, tidy_of_same first second tidied equal, equal⟩

variable {first second : Scalar}

theorem Alike.value (alike : Alike first second) : first.value? = second.value? :=
  value_of_same alike.equal

theorem Alike.isZero (alike : Alike first second) : first.isZero = second.isZero := by
  rw [Scalar.isZero, Scalar.isZero, alike.value]

theorem Alike.isOne (alike : Alike first second) : first.isOne = second.isOne := by
  rw [Scalar.isOne, Scalar.isOne, alike.value]

theorem Alike.isNegation (alike : Alike first second) : first.isNegation = second.isNegation := by
  have equal := alike.equal
  cases first <;> cases second <;> simp_all [same, Scalar.isNegation]

/-- Equality does not tell alike scalars apart, on either side. -/
theorem Alike.same_congr {left right : Scalar} (alike : Alike first second)
    (others : Alike left right) : first.same left = second.same right := by
  rw [Bool.eq_iff_iff]
  constructor
  · intro equal
    exact same_trans _ _ _ alike.symm.equal (same_trans _ _ _ equal others.equal)
  · intro equal
    exact same_trans _ _ _ alike.equal (same_trans _ _ _ equal others.symm.equal)

theorem literal_alike (value : Decimal) : Alike (literal value) (literal value) :=
  .refl rfl

theorem negative_alike_iff (left right : Scalar) :
    Alike (negative left) (negative right) ↔ Alike left right :=
  ⟨fun alike => ⟨alike.firstTidy, alike.secondTidy, alike.equal⟩,
    fun alike => ⟨alike.firstTidy, alike.secondTidy, alike.equal⟩⟩

theorem Alike.negative {operand : Scalar} (alike : Alike (negative operand) second) :
    ∃ other, second = .negative other ∧ Alike operand other := by
  obtain ⟨other, rfl, _⟩ := (negative_same_iff _ _).1 alike.equal
  exact ⟨other, rfl, (negative_alike_iff _ _).1 alike⟩

theorem not_negation_of {scalar : Scalar} (notNegation : scalar.isNegation = false)
    (other : Scalar) : isNegationOf scalar other = false := by
  cases scalar <;> simp_all [isNegation, isNegationOf]

theorem Alike.isNegationOf {left right : Scalar} (alike : Alike first second)
    (others : Alike left right) : isNegationOf first left = isNegationOf second right := by
  cases negation : first.isNegation with
  | true =>
      cases first with
      | negative inner =>
          obtain ⟨other, rfl, inners⟩ := alike.negative
          exact inners.same_congr others
      | _ => cases negation
  | false => rw [not_negation_of negation, not_negation_of (alike.isNegation ▸ negation)]

theorem add_alike {left right : Scalar} (alike : Alike first second) (others : Alike left right) :
    Alike (add first left) (add second right) := by
  refine ⟨?_, ?_, (add_same_iff _ _ _).2 ⟨_, _, rfl, alike.equal, others.equal⟩⟩
  · rw [tidy, alike.firstTidy, others.firstTidy]
    rfl
  · rw [tidy, alike.secondTidy, others.secondTidy]
    rfl

theorem Alike.add {left right : Scalar} (alike : Alike (add left right) second) :
    ∃ otherLeft otherRight, second = .add otherLeft otherRight ∧ Alike left otherLeft ∧
      Alike right otherRight := by
  obtain ⟨firstTidy, secondTidy, equal⟩ := alike
  obtain ⟨_, _, rfl, leftSame, rightSame⟩ := (add_same_iff _ _ _).1 equal
  rw [tidy, Bool.and_eq_true] at firstTidy secondTidy
  exact ⟨_, _, rfl, ⟨firstTidy.1, secondTidy.1, leftSame⟩, ⟨firstTidy.2, secondTidy.2, rightSame⟩⟩

theorem mul_alike {left right : Scalar} (alike : Alike first second) (others : Alike left right) :
    Alike (mul first left) (mul second right) := by
  refine ⟨?_, ?_, (mul_same_iff _ _ _).2 ⟨_, _, rfl, alike.equal, others.equal⟩⟩
  · rw [tidy, alike.firstTidy, others.firstTidy]
    rfl
  · rw [tidy, alike.secondTidy, others.secondTidy]
    rfl

theorem Alike.mul {left right : Scalar} (alike : Alike (mul left right) second) :
    ∃ otherLeft otherRight, second = .mul otherLeft otherRight ∧ Alike left otherLeft ∧
      Alike right otherRight := by
  obtain ⟨firstTidy, secondTidy, equal⟩ := alike
  obtain ⟨_, _, rfl, leftSame, rightSame⟩ := (mul_same_iff _ _ _).1 equal
  rw [tidy, Bool.and_eq_true] at firstTidy secondTidy
  exact ⟨_, _, rfl, ⟨firstTidy.1, secondTidy.1, leftSame⟩, ⟨firstTidy.2, secondTidy.2, rightSame⟩⟩

theorem div_alike {left right : Scalar} (alike : Alike first second) (others : Alike left right) :
    Alike (div first left) (div second right) := by
  refine ⟨?_, ?_, (div_same_iff _ _ _).2 ⟨_, _, rfl, alike.equal, others.equal⟩⟩
  · rw [tidy, alike.firstTidy, others.firstTidy]
    rfl
  · rw [tidy, alike.secondTidy, others.secondTidy]
    rfl

theorem Alike.div {left right : Scalar} (alike : Alike (div left right) second) :
    ∃ otherLeft otherRight, second = .div otherLeft otherRight ∧ Alike left otherLeft ∧
      Alike right otherRight := by
  obtain ⟨firstTidy, secondTidy, equal⟩ := alike
  obtain ⟨_, _, rfl, leftSame, rightSame⟩ := (div_same_iff _ _ _).1 equal
  rw [tidy, Bool.and_eq_true] at firstTidy secondTidy
  exact ⟨_, _, rfl, ⟨firstTidy.1, secondTidy.1, leftSame⟩, ⟨firstTidy.2, secondTidy.2, rightSame⟩⟩

def BoundAlike : Option Scalar → Option Scalar → Prop :=
  Option.Rel Alike

theorem bound_alike_iff (bound other : Option Scalar) :
    BoundAlike bound other ↔
      tidyBound bound = true ∧ tidyBound other = true ∧ sameBound bound other = true := by
  rw [same_bound_iff]
  cases bound <;> cases other <;> simp [BoundAlike, tidyBound]
  exact ⟨fun alike => ⟨alike.firstTidy, alike.secondTidy, alike.equal⟩,
    fun both => ⟨both.1, both.2.1, both.2.2⟩⟩

theorem slice_alike {extent other : Scalar} {start stop otherStart otherStop : Option Scalar}
    (extents : Alike extent other) (starts : BoundAlike start otherStart)
    (stops : BoundAlike stop otherStop) :
    Alike (slice extent start stop) (slice other otherStart otherStop) := by
  rw [bound_alike_iff] at starts stops
  refine ⟨?_, ?_, (slice_same_iff _ _ _ _).2
    ⟨_, _, _, rfl, starts.2.2, stops.2.2, extents.equal⟩⟩
  · rw [tidy, extents.firstTidy, starts.1, stops.1]
    rfl
  · rw [tidy, extents.secondTidy, starts.2.1, stops.2.1]
    rfl

theorem Alike.slice {extent : Scalar} {start stop : Option Scalar}
    (alike : Alike (slice extent start stop) second) :
    ∃ other otherStart otherStop, second = .slice other otherStart otherStop ∧
      Alike extent other ∧ BoundAlike start otherStart ∧ BoundAlike stop otherStop := by
  obtain ⟨firstTidy, secondTidy, equal⟩ := alike
  obtain ⟨_, _, _, rfl, startSame, stopSame, extentSame⟩ := (slice_same_iff _ _ _ _).1 equal
  rw [tidy, Bool.and_eq_true, Bool.and_eq_true] at firstTidy secondTidy
  exact ⟨_, _, _, rfl, ⟨firstTidy.1.1, secondTidy.1.1, extentSame⟩,
    (bound_alike_iff _ _).2 ⟨firstTidy.1.2, secondTidy.1.2, startSame⟩,
    (bound_alike_iff _ _).2 ⟨firstTidy.2, secondTidy.2, stopSame⟩⟩

/-- Operands each of which has an alike on the other side. -/
structure Matched (operands others : List Scalar) : Prop where
  forward : ∀ operand ∈ operands, ∃ other ∈ others, Alike operand other
  backward : ∀ other ∈ others, ∃ operand ∈ operands, Alike operand other

theorem Matched.symm {operands others : List Scalar} (matched : Matched operands others) :
    Matched others operands :=
  ⟨fun other member => (matched.backward other member).imp fun _ found => ⟨found.1, found.2.symm⟩,
    fun operand member => (matched.forward operand member).imp fun _ found =>
      ⟨found.1, found.2.symm⟩⟩

theorem matched_of_related {operands others : List Scalar}
    (each : List.Forall₂ Alike operands others) : Matched operands others :=
  ⟨fun _ member => Outcome.target_of_mem each member,
    fun _ member => Outcome.source_of_mem each member⟩

theorem Matched.tidied {operands others : List Scalar} (matched : Matched operands others) :
    ∀ operand ∈ operands, operand.tidy = true := by
  intro operand member
  obtain ⟨_, _, alike⟩ := matched.forward operand member
  exact alike.firstTidy

theorem Matched.isEmpty {operands others : List Scalar} (matched : Matched operands others) :
    operands.isEmpty = others.isEmpty := by
  cases operands with
  | nil =>
      cases others with
      | nil => rfl
      | cons other rest => simpa using matched.backward other
  | cons operand rest =>
      cases others with
      | nil => simpa using matched.forward operand
      | cons => rfl

theorem Matched.append {operands others moreOperands moreOthers : List Scalar}
    (matched : Matched operands others) (more : Matched moreOperands moreOthers) :
    Matched (operands ++ moreOperands) (others ++ moreOthers) := by
  constructor
  · intro operand member
    rcases List.mem_append.1 member with early | late
    · obtain ⟨other, otherMember, alike⟩ := matched.forward operand early
      exact ⟨other, by simp [otherMember], alike⟩
    · obtain ⟨other, otherMember, alike⟩ := more.forward operand late
      exact ⟨other, by simp [otherMember], alike⟩
  · intro other member
    rcases List.mem_append.1 member with early | late
    · obtain ⟨operand, operandMember, alike⟩ := matched.backward other early
      exact ⟨operand, by simp [operandMember], alike⟩
    · obtain ⟨operand, operandMember, alike⟩ := more.backward other late
      exact ⟨operand, by simp [operandMember], alike⟩

theorem Matched.flatMap {splice : Scalar → List Scalar} {operands others : List Scalar}
    (matched : Matched operands others)
    (spliced : ∀ first second, Alike first second → Matched (splice first) (splice second)) :
    Matched (operands.flatMap splice) (others.flatMap splice) := by
  constructor
  · intro part member
    obtain ⟨operand, operandMember, partMember⟩ := List.mem_flatMap.1 member
    obtain ⟨other, otherMember, alike⟩ := matched.forward operand operandMember
    obtain ⟨partner, partnerMember, parts⟩ := (spliced operand other alike).forward part partMember
    exact ⟨partner, List.mem_flatMap.2 ⟨other, otherMember, partnerMember⟩, parts⟩
  · intro part member
    obtain ⟨other, otherMember, partMember⟩ := List.mem_flatMap.1 member
    obtain ⟨operand, operandMember, alike⟩ := matched.backward other otherMember
    obtain ⟨partner, partnerMember, parts⟩ := (spliced operand other alike).backward part partMember
    exact ⟨partner, List.mem_flatMap.2 ⟨operand, operandMember, partnerMember⟩, parts⟩

theorem Matched.filter {keep : Scalar → Bool} {operands others : List Scalar}
    (matched : Matched operands others)
    (agrees : ∀ first second, Alike first second → keep first = keep second) :
    Matched (operands.filter keep) (others.filter keep) := by
  constructor
  · intro operand member
    obtain ⟨operandMember, kept⟩ := List.mem_filter.1 member
    obtain ⟨other, otherMember, alike⟩ := matched.forward operand operandMember
    exact ⟨other, List.mem_filter.2 ⟨otherMember, agrees _ _ alike ▸ kept⟩, alike⟩
  · intro other member
    obtain ⟨otherMember, kept⟩ := List.mem_filter.1 member
    obtain ⟨operand, operandMember, alike⟩ := matched.backward other otherMember
    exact ⟨operand, List.mem_filter.2 ⟨operandMember, agrees _ _ alike ▸ kept⟩, alike⟩

/-- Each operand has an equal among those that are left when repetitions are dropped. -/
theorem matched_unique {operands : List Scalar} (tidied : ∀ operand ∈ operands, operand.tidy = true) :
    Matched operands (unique operands) := by
  constructor
  · intro operand member
    obtain ⟨first, firstMember, equal⟩ := exists_same_of_mem operands member
    exact ⟨first, firstMember, (alike_of_same (tidied _ (mem_of_mem_unique firstMember)) equal).symm⟩
  · intro other member
    have source := mem_of_mem_unique member
    exact ⟨other, source, .refl (tidied other source)⟩

theorem Matched.trans {operands others thirds : List Scalar} (matched : Matched operands others)
    (next : Matched others thirds) : Matched operands thirds := by
  constructor
  · intro operand member
    obtain ⟨other, otherMember, alike⟩ := matched.forward operand member
    obtain ⟨third, thirdMember, nextAlike⟩ := next.forward other otherMember
    exact ⟨third, thirdMember, alike.trans nextAlike⟩
  · intro third member
    obtain ⟨other, otherMember, nextAlike⟩ := next.backward third member
    obtain ⟨operand, operandMember, alike⟩ := matched.backward other otherMember
    exact ⟨operand, operandMember, alike.trans nextAlike⟩

theorem Matched.unique {operands others : List Scalar} (matched : Matched operands others) :
    Matched (unique operands) (unique others) :=
  (matched_unique matched.tidied).symm.trans (matched.trans (matched_unique matched.symm.tidied))

/-- Different operands are no more than those they are matched with. -/
theorem Matched.length_le {operands others : List Scalar} (matched : Matched operands others)
    (different : distinct operands = true) : operands.length ≤ others.length := by
  have apart : operands.Pairwise fun first second => ∀ other, Alike first other →
      ¬Alike second other := by
    refine ((distinct_iff _).1 different).imp fun {first second} unequal other alike next => ?_
    rw [(alike.trans next.symm).equal] at unequal
    cases unequal
  obtain ⟨partners, rest, perm, each⟩ := Outcome.exists_matching operands others apart matched.forward
  rw [← perm.length_eq, List.length_append, each.length_eq]
  exact Nat.le_add_right _ _

theorem Matched.length_eq {operands others : List Scalar} (matched : Matched operands others)
    (different : distinct operands = true) (othersDifferent : distinct others = true) :
    operands.length = others.length :=
  le_antisymm (matched.length_le different) (matched.symm.length_le othersDifferent)

theorem min_tidy_iff (operands : List Scalar) : (min operands).tidy = true ↔
    distinct operands = true ∧ ∀ operand ∈ operands, operand.tidy = true := by
  rw [tidy, Bool.and_eq_true, tidy_all_iff]

theorem max_tidy_iff (operands : List Scalar) : (max operands).tidy = true ↔
    distinct operands = true ∧ ∀ operand ∈ operands, operand.tidy = true := by
  rw [tidy, Bool.and_eq_true, tidy_all_iff]

theorem slice_tidy_iff (extent : Scalar) (start stop : Option Scalar) :
    (slice extent start stop).tidy = true ↔
      extent.tidy = true ∧ tidyBound start = true ∧ tidyBound stop = true := by
  rw [tidy, Bool.and_eq_true, Bool.and_eq_true, and_assoc]

theorem min_alike_iff (operands : List Scalar) (scalar : Scalar) :
    Alike (min operands) scalar ↔ ∃ others, scalar = min others ∧ distinct operands = true ∧
      distinct others = true ∧ Matched operands others := by
  constructor
  · intro alike
    obtain ⟨firstTidy, secondTidy, equal⟩ := alike
    obtain ⟨others, rfl, sameLength, within⟩ := (min_same_iff _ _).1 equal
    rw [tidy, Bool.and_eq_true, tidy_all_iff] at firstTidy secondTidy
    refine ⟨others, rfl, firstTidy.1, secondTidy.1, fun operand member => ?_, fun other member => ?_⟩
    · obtain ⟨other, otherMember, same⟩ := within operand member
      exact ⟨other, otherMember, firstTidy.2 _ member, secondTidy.2 _ otherMember, same⟩
    · obtain ⟨operand, operandMember, same⟩ := within_of_distinct operands others
        ((distinct_iff _).1 firstTidy.1)
        (fun operand found other => same_symm operand other (firstTidy.2 operand found))
        sameLength within other member
      exact ⟨operand, operandMember, firstTidy.2 _ operandMember, secondTidy.2 _ member, same⟩
  · rintro ⟨others, rfl, different, othersDifferent, matched⟩
    refine ⟨?_, ?_, (min_same_iff _ _).2 ⟨others, rfl,
      matched.length_eq different othersDifferent, fun operand member => ?_⟩⟩
    · rw [tidy, Bool.and_eq_true, tidy_all_iff]
      exact ⟨different, matched.tidied⟩
    · rw [tidy, Bool.and_eq_true, tidy_all_iff]
      exact ⟨othersDifferent, matched.symm.tidied⟩
    · obtain ⟨other, otherMember, alike⟩ := matched.forward operand member
      exact ⟨other, otherMember, alike.equal⟩

theorem max_alike_iff (operands : List Scalar) (scalar : Scalar) :
    Alike (max operands) scalar ↔ ∃ others, scalar = max others ∧ distinct operands = true ∧
      distinct others = true ∧ Matched operands others := by
  have both : ∀ others, Alike (max operands) (max others) ↔ Alike (min operands) (min others) :=
    fun others => ⟨fun alike => ⟨alike.firstTidy, alike.secondTidy, alike.equal⟩,
      fun alike => ⟨alike.firstTidy, alike.secondTidy, alike.equal⟩⟩
  constructor
  · intro alike
    obtain ⟨others, rfl, _⟩ := (max_same_iff _ _).1 alike.equal
    obtain ⟨found, same, rest⟩ := (min_alike_iff _ _).1 ((both others).1 alike)
    cases same
    exact ⟨others, rfl, rest⟩
  · rintro ⟨others, rfl, rest⟩
    exact (both others).2 ((min_alike_iff _ _).2 ⟨others, rfl, rest⟩)

end Scalar

namespace Canonical

open Scalar

variable {left right left' right' : Scalar}

theorem negative_alike {operand other : Scalar} (alike : Alike operand other) :
    Alike (negative operand) (negative other) := by
  cases found : operand.value? with
  | some value =>
      unfold negative
      rw [← alike.value, found]
      exact literal_alike _
  | none =>
      cases negation : operand.isNegation with
      | true =>
          cases operand with
          | negative inner =>
              obtain ⟨otherInner, rfl, inners⟩ := alike.negative
              exact inners
          | _ => cases negation
      | false =>
          rw [negative_reduced ⟨found, negation⟩,
            negative_reduced ⟨alike.value ▸ found, alike.isNegation ▸ negation⟩]
          exact (negative_alike_iff _ _).2 alike

theorem not_both_alike (leftAlike : Alike left left') (rightAlike : Alike right right') :
    NotBothNumbers left right ↔ NotBothNumbers left' right' := by
  unfold NotBothNumbers
  rw [leftAlike.value, rightAlike.value]

theorem add_reduced_alike (leftAlike : Alike left left') (rightAlike : Alike right right') :
    (Scalar.add left right).Reduced ↔ (Scalar.add left' right').Reduced := by
  simp only [Reduced]
  rw [not_both_alike leftAlike rightAlike, leftAlike.isZero, rightAlike.isZero,
    rightAlike.isNegationOf leftAlike, leftAlike.isNegationOf rightAlike, leftAlike.isNegation,
    rightAlike.isNegation]

theorem sum_alike (leftAlike : Alike left left') (rightAlike : Alike right right') :
    Alike (sum left right) (sum left' right') := by
  have notBoth' : (∀ first second, left.value? = some first → right.value? = some second → False) →
      NotBothNumbers left' right' := fun notBoth =>
    (not_both_alike leftAlike rightAlike).1 (not_both_numbers notBoth)
  fun_induction sum left right generalizing left' right' with
  | case1 left right leftValue rightValue rightFound leftFound =>
      unfold sum
      rw [← leftAlike.value, ← rightAlike.value, leftFound, rightFound]
      exact literal_alike _
  | case2 left right zero notBoth =>
      rw [sum_not_both (notBoth' notBoth), ← leftAlike.isZero, if_pos zero]
      exact rightAlike
  | case3 left right leftZero zero notBoth =>
      rw [sum_not_both (notBoth' notBoth), ← leftAlike.isZero, if_neg leftZero,
        ← rightAlike.isZero, if_pos zero]
      exact leftAlike
  | case4 left right leftZero rightZero opposite notBoth =>
      rw [sum_not_both (notBoth' notBoth), ← leftAlike.isZero, if_neg leftZero,
        ← rightAlike.isZero, if_neg rightZero, ← rightAlike.isNegationOf leftAlike,
        ← leftAlike.isNegationOf rightAlike, if_pos opposite]
      exact literal_alike 0
  | case5 leftInner rightInner leftZero rightZero opposite notBoth ih =>
      obtain ⟨leftOther, rfl, leftInners⟩ := leftAlike.negative
      obtain ⟨rightOther, rfl, rightInners⟩ := rightAlike.negative
      rw [sum_not_both (notBoth' notBoth), ← leftAlike.isZero, if_neg leftZero,
        ← rightAlike.isZero, if_neg rightZero, ← rightAlike.isNegationOf leftAlike,
        ← leftAlike.isNegationOf rightAlike, if_neg opposite]
      exact negative_alike (ih leftInners rightInners fun inner =>
        (not_both_alike leftInners rightInners).1 (not_both_numbers inner))
  | case6 left right leftZero rightZero opposite notBoth notNegations =>
      rw [sum_reduced ((add_reduced_alike leftAlike rightAlike).1
        (add_reduced notBoth leftZero rightZero opposite notNegations))]
      exact add_alike leftAlike rightAlike

theorem product_alike (leftAlike : Alike left left') (rightAlike : Alike right right') :
    Alike (product left right) (product left' right') := by
  unfold product
  rw [← leftAlike.value, ← rightAlike.value, ← leftAlike.isZero, ← rightAlike.isZero,
    ← leftAlike.isOne, ← rightAlike.isOne]
  split
  · exact literal_alike _
  · split_ifs
    · exact literal_alike 0
    · exact rightAlike
    · exact leftAlike
    · exact mul_alike leftAlike rightAlike

/-- Outcomes that are alike scalars, or the same failure. -/
inductive Agree : Outcome Scalar → Outcome Scalar → Prop
  | ok {first second : Scalar} (alike : Alike first second) : Agree (.ok first) (.ok second)
  | error (failure : Failure) : Agree (.error failure) (.error failure)

theorem quotient_agree (subject : Unit → String) (leftAlike : Alike left left')
    (rightAlike : Alike right right') :
    Agree (quotient subject left right) (quotient subject left' right') := by
  unfold quotient
  rw [← leftAlike.value, ← rightAlike.value, ← leftAlike.isZero, ← rightAlike.isZero,
    ← rightAlike.isOne]
  by_cases zero : right.isZero = true
  · rw [if_pos zero, if_pos zero]
    exact .error _
  rw [if_neg zero, if_neg zero]
  split
  case h_1 leftValue rightValue _ _ =>
      cases leftValue.quotient rightValue with
      | ok value => exact .ok (literal_alike value)
      | error failure => exact .error failure
  case h_2 =>
      split_ifs
      · exact .ok leftAlike
      · exact .ok (literal_alike 0)
      · exact .ok (div_alike leftAlike rightAlike)

section Extremum

variable {choose : Decimal → Decimal → Decimal} {before : Decimal → Decimal → Prop}

/-- The choice among numbers depends on which numbers there are. -/
theorem fold_eq_of_members (choice : Choice choose before) {first other : Decimal}
    {rest others : List Decimal} (members : ∀ number, number ∈ first :: rest ↔ number ∈ other :: others) :
    rest.foldl choose first = others.foldl choose other := by
  obtain ⟨member, least⟩ := fold_chosen choice first rest
  obtain ⟨otherMember, otherLeast⟩ := fold_chosen choice other others
  exact choice.antisymm _ _ (least _ ((members _).2 otherMember)) (otherLeast _ ((members _).1 member))

variable {operands others : List Scalar}

theorem folded_number_eq (choice : Choice choose before) (matched : Matched operands others) :
    foldedNumber choose operands = foldedNumber choose others := by
  have numbers : ∀ {operands others : List Scalar}, Matched operands others → ∀ number,
      number ∈ operands.filterMap Scalar.value? → number ∈ others.filterMap Scalar.value? := by
    intro operands others matched number member
    obtain ⟨operand, operandMember, found⟩ := List.mem_filterMap.1 member
    obtain ⟨other, otherMember, alike⟩ := matched.forward operand operandMember
    exact List.mem_filterMap.2 ⟨other, otherMember, alike.value ▸ found⟩
  have members := fun number => Iff.intro (numbers matched number) (numbers matched.symm number)
  unfold foldedNumber
  cases found : operands.filterMap Scalar.value? with
  | nil =>
      cases othersFound : others.filterMap Scalar.value? with
      | nil => rfl
      | cons other rest => simpa [found, othersFound] using members other
  | cons first rest =>
      cases othersFound : others.filterMap Scalar.value? with
      | nil => simpa [found, othersFound] using members first
      | cons other others =>
          rw [found, othersFound] at members
          exact congrArg some (fold_eq_of_members choice members)

theorem fold_constants_matched (choice : Choice choose before) (matched : Matched operands others) :
    Matched (foldConstants choose operands) (foldConstants choose others) := by
  rw [fold_constants_eq, fold_constants_eq, ← folded_number_eq choice matched]
  refine (matched.filter fun first second alike => by rw [alike.value]).append ?_
  cases foldedNumber choose operands with
  | none => exact matched_of_related .nil
  | some number => exact matched_of_related (.cons (literal_alike number) .nil)

theorem of_members_agree {build : List Scalar → Scalar}
    (built : ∀ operands others, distinct operands = true → distinct others = true →
      Matched operands others → Alike (build operands) (build others))
    (matched : Matched operands others) :
    Agree (ofMembers build operands) (ofMembers build others) := by
  have kept := matched.unique
  have different := unique_distinct operands
  have othersDifferent := unique_distinct others
  have sameLength := kept.length_eq different othersDifferent
  unfold ofMembers
  match found : unique operands, othersFound : unique others with
  | [], [] => exact .error _
  | [first], [second] =>
      rw [found, othersFound] at kept
      obtain ⟨other, otherMember, alike⟩ := kept.forward first (by simp)
      rw [List.mem_singleton.1 otherMember] at alike
      exact .ok alike
  | _ :: _ :: _, _ :: _ :: _ =>
      rw [found, othersFound] at kept
      rw [found] at different
      rw [othersFound] at othersDifferent
      exact .ok (built _ _ different othersDifferent kept)
  | [], _ :: _ => simp [found, othersFound] at sameLength
  | _ :: _, [] => simp [found, othersFound] at sameLength
  | [_], _ :: _ :: _ => simp [found, othersFound] at sameLength
  | _ :: _ :: _, [_] => simp [found, othersFound] at sameLength

/-- Operands are spliced, numbers among them folded and repetitions dropped. -/
theorem spliced_agree (choice : Choice choose before) {build : List Scalar → Scalar}
    {splice : Scalar → List Scalar}
    (built : ∀ operands scalar, Alike (build operands) scalar ↔ ∃ others, scalar = build others ∧
      distinct operands = true ∧ distinct others = true ∧ Matched operands others)
    (spliced : ∀ operand, splice operand = [operand] ∨
      ∃ inner, operand = build inner ∧ splice operand = inner)
    (flat : ∀ inner, splice (build inner) = inner) (matched : Matched operands others) :
    Agree (ofMembers build (foldConstants choose (operands.flatMap splice)))
      (ofMembers build (foldConstants choose (others.flatMap splice))) := by
  refine of_members_agree (fun operands others different othersDifferent matched =>
    (built _ _).2 ⟨others, rfl, different, othersDifferent, matched⟩) ?_
  refine fold_constants_matched choice (matched.flatMap fun first second alike => ?_)
  rcases spliced first with alone | ⟨inner, rfl, same⟩
  · rcases spliced second with otherAlone | ⟨inner, rfl, same⟩
    · rw [alone, otherAlone]
      exact matched_of_related (.cons alike .nil)
    · obtain ⟨_, rfl, _, _, inners⟩ := (built _ _).1 alike.symm
      rw [flat, flat]
      exact inners.symm
  · obtain ⟨_, rfl, _, _, inners⟩ := (built _ _).1 alike
    rw [flat, flat]
    exact inners

theorem minimum_agree (subject : Unit → String) (matched : Matched operands others) :
    Agree (minimum subject operands) (minimum subject others) := by
  unfold minimum
  rw [← matched.isEmpty]
  split_ifs
  · exact .error _
  · exact spliced_agree choice_min min_alike_iff splice_minimum_cases (fun _ => rfl) matched

theorem maximum_agree (subject : Unit → String) (matched : Matched operands others) :
    Agree (maximum subject operands) (maximum subject others) := by
  unfold maximum
  rw [← matched.isEmpty]
  split_ifs
  · exact .error _
  · exact spliced_agree choice_max max_alike_iff splice_maximum_cases (fun _ => rfl) matched

end Extremum

theorem is_none_alike {bound other : Option Scalar} (alike : BoundAlike bound other) :
    bound.isNone = other.isNone := by
  cases alike <;> rfl

theorem bound_value_alike {bound other : Option Scalar} (alike : BoundAlike bound other) :
    boundValue? bound = boundValue? other := by
  cases alike with
  | none => rfl
  | some alike => rw [boundValue?, boundValue?, alike.value]

theorem slice_agree (subject : Unit → String) {extent extent' : Scalar}
    {interval interval' : Interval} (extents : Alike extent extent')
    (starts : BoundAlike interval.start interval'.start)
    (stops : BoundAlike interval.stop interval'.stop) :
    Agree (slice subject extent interval) (slice subject extent' interval') := by
  have full : interval.isFull = interval'.isFull := by
    rw [Interval.isFull, Interval.isFull, is_none_alike starts, is_none_alike stops]
  unfold slice
  rw [← full, ← extents.value, ← bound_value_alike starts, ← bound_value_alike stops]
  by_cases isFull : interval.isFull = true
  · rw [if_pos isFull, if_pos isFull]
    exact .ok extents
  rw [if_neg isFull, if_neg isFull]
  split
  case h_1 extentValue start stop _ _ _ =>
      cases Outcome.blame subject (sliceLength extentValue start stop) with
      | ok value => exact .ok (literal_alike value)
      | error failure => exact .error failure
  case h_2 => exact .ok (slice_alike extents starts stops)

end Canonical

end Analog
