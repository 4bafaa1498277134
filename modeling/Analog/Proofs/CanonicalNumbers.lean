import Analog.Proofs.AssignedPrograms
import Analog.Proofs.CanonicalScalars

/-!
# Fixed scalars come down to numbers

The canonical form of a scalar without variables is a number. If the scalar has a value, this
is the number; a slice without bounds comes down to its extent also where the extent is
negative and the slice has no value. In contrast to scalars with variables, nothing is
excepted: quotients of numbers are rounded while they are simplified.
-/

set_option autoImplicit false

namespace Analog.Canonical

open Scalar

variable {bindings : ScalarBindings}

/-- A canonical form that is a number, and the value of the given scalar if there is one. -/
def Settles (bindings : ScalarBindings) (given result : Scalar) : Prop :=
  ∃ number, result.value? = some number ∧ ∀ value, given.eval bindings = .ok value → value = number

theorem number_known {scalar : Scalar} {number : Decimal} (found : scalar.value? = some number) :
    Known bindings scalar number := by
  cases scalar <;> cases found <;> exact ⟨rfl, rfl⟩

theorem number_tidy {scalar : Scalar} {number : Decimal} (found : scalar.value? = some number) :
    scalar.tidy = true := by
  cases scalar <;> cases found <;> rfl

theorem number_fixed {scalar : Scalar} {number : Decimal} (found : scalar.value? = some number) :
    scalar.Fixed := by
  cases scalar <;> cases found
  · exact fixed_literal _
  · exact fixed_assigned _ _

theorem settles_number {scalar : Scalar} {number : Decimal} (found : scalar.value? = some number) :
    Settles bindings scalar scalar := by
  refine ⟨number, found, fun value valueOk => ?_⟩
  rw [(number_known found).evaluates, Except.ok.injEq] at valueOk
  exact valueOk.symm

theorem number_of_same {first second : Scalar} {number other : Decimal}
    (firstFound : first.value? = some number) (secondFound : second.value? = some other)
    (equal : first.same second = true) : number = other := by
  cases first <;> cases firstFound <;> cases second <;> cases secondFound <;>
    simp_all [Scalar.same]

theorem eval_iff_of_same {first second : Scalar} (firstTidy : first.tidy = true)
    (secondTidy : second.tidy = true) (equal : first.same second = true) (value : Decimal) :
    first.eval bindings = .ok value ↔ second.eval bindings = .ok value :=
  ⟨eval_of_same first second value firstTidy equal,
    eval_of_same second first value secondTidy (same_symm first second firstTidy equal)⟩

theorem Settles.of_same {first second result : Scalar} (settles : Settles bindings first result)
    (firstTidy : first.tidy = true) (secondTidy : second.tidy = true)
    (equal : first.same second = true) : Settles bindings second result := by
  obtain ⟨number, found, only⟩ := settles
  exact ⟨number, found, fun value valueOk =>
    only value ((eval_iff_of_same firstTidy secondTidy equal value).2 valueOk)⟩

theorem negative_number {operand : Scalar} {number : Decimal}
    (found : operand.value? = some number) : (negative operand).value? = some (-number) := by
  unfold negative
  rw [found]
  rfl

theorem sum_number {left right : Scalar} {first second : Decimal}
    (leftFound : left.value? = some first) (rightFound : right.value? = some second) :
    (sum left right).value? = some (first + second) := by
  unfold sum
  rw [leftFound, rightFound]
  rfl

theorem product_number {left right : Scalar} {first second : Decimal}
    (leftFound : left.value? = some first) (rightFound : right.value? = some second) :
    (product left right).value? = some (first * second) := by
  unfold product
  rw [leftFound, rightFound]
  rfl

theorem quotient_number {subject : Unit → String} {left right result : Scalar}
    {first second : Decimal} (leftFound : left.value? = some first)
    (rightFound : right.value? = some second)
    (made : quotient subject left right = .ok result) :
    ∃ number, result.value? = some number ∧ first.div? second = some number := by
  unfold quotient at made
  rw [leftFound, rightFound] at made
  by_cases zero : right.isZero = true
  · rw [if_pos zero] at made
    cases made
  rw [if_neg zero] at made
  obtain ⟨number, divided, same⟩ := (Outcome.bind_ok_iff _ _ _).1 made
  rw [Outcome.pure_ok_iff] at same
  subst same
  exact ⟨number, rfl, (Decimal.quotient_ok_iff _ _ _).1 divided⟩

abbrev Numbers (operands : List Scalar) (numbers : List Decimal) : Prop :=
  List.Forall₂ (fun operand number => operand.value? = some number) operands numbers

theorem fold_constants_numbers (combine : Decimal → Decimal → Decimal) {operands : List Scalar}
    {first : Decimal} {rest : List Decimal} (numbers : Numbers operands (first :: rest)) :
    foldConstants combine operands = [.literal (rest.foldl combine first)] := by
  have values : ∀ (some : List Scalar) (found : List Decimal), Numbers some found →
      some.filterMap Scalar.value? = found ∧
        some.filter (fun operand => operand.value?.isNone) = [] := by
    intro some found each
    induction each with
    | nil => exact ⟨rfl, rfl⟩
    | cons valued _ ih => simp [valued, ih.1, ih.2]
  obtain ⟨found, none⟩ := values operands (first :: rest) numbers
  unfold foldConstants
  dsimp only
  rw [found, none]
  rfl

theorem splice_numbers {splice : Scalar → List Scalar}
    (alone : ∀ operand number, operand.value? = some number → splice operand = [operand])
    {operands : List Scalar} {numbers : List Decimal} (each : Numbers operands numbers) :
    operands.flatMap splice = operands := by
  induction each with
  | nil => rfl
  | cons valued _ ih => rw [List.flatMap_cons, alone _ _ valued, ih]; rfl

/-- A choice among numbers is made at once, and leaves nothing to build. -/
theorem choice_folds {combine : Decimal → Decimal → Decimal} {build : List Scalar → Scalar}
    {splice : Scalar → List Scalar}
    (alone : ∀ operand number, operand.value? = some number → splice operand = [operand])
    {operands : List Scalar} {first : Decimal} {rest : List Decimal}
    (each : Numbers operands (first :: rest)) :
    ofMembers build (foldConstants combine (operands.flatMap splice)) =
      .ok (.literal (rest.foldl combine first)) := by
  rw [splice_numbers alone each, fold_constants_numbers combine each]
  rfl

theorem splice_minimum_number (operand : Scalar) (number : Decimal)
    (found : operand.value? = some number) : spliceMinimum operand = [operand] := by
  cases operand <;> cases found <;> rfl

theorem splice_maximum_number (operand : Scalar) (number : Decimal)
    (found : operand.value? = some number) : spliceMaximum operand = [operand] := by
  cases operand <;> cases found <;> rfl

theorem minimum_folds (subject : Unit → String) {operands : List Scalar} {first : Decimal}
    {rest : List Decimal} (each : Numbers operands (first :: rest)) :
    minimum subject operands = .ok (.literal (rest.foldl Min.min first)) := by
  have some : ¬operands.isEmpty = true := by
    cases each
    exact Bool.false_ne_true
  rw [minimum, if_neg some]
  exact choice_folds splice_minimum_number each

theorem maximum_folds (subject : Unit → String) {operands : List Scalar} {first : Decimal}
    {rest : List Decimal} (each : Numbers operands (first :: rest)) :
    maximum subject operands = .ok (.literal (rest.foldl Max.max first)) := by
  have some : ¬operands.isEmpty = true := by
    cases each
    exact Bool.false_ne_true
  rw [maximum, if_neg some]
  exact choice_folds splice_maximum_number each

theorem minimum_number {subject : Unit → String} {operands : List Scalar} {numbers : List Decimal}
    {result : Scalar} (each : Numbers operands numbers)
    (made : minimum subject operands = .ok result) :
    ∃ first rest, numbers = first :: rest ∧ result.value? = some (rest.foldl Min.min first) := by
  cases numbers with
  | nil =>
      cases each
      cases made
  | cons first rest =>
      rw [minimum_folds subject each, Except.ok.injEq] at made
      subst made
      exact ⟨first, rest, rfl, rfl⟩

theorem maximum_number {subject : Unit → String} {operands : List Scalar} {numbers : List Decimal}
    {result : Scalar} (each : Numbers operands numbers)
    (made : maximum subject operands = .ok result) :
    ∃ first rest, numbers = first :: rest ∧ result.value? = some (rest.foldl Max.max first) := by
  cases numbers with
  | nil =>
      cases each
      cases made
  | cons first rest =>
      rw [maximum_folds subject each, Except.ok.injEq] at made
      subst made
      exact ⟨first, rest, rfl, rfl⟩

theorem slice_number {subject : Unit → String} {extent result : Scalar} {interval : Interval}
    {extentNumber : Decimal} {start stop : Option Decimal}
    (extentFound : extent.value? = some extentNumber)
    (startFound : boundValue? interval.start = some start)
    (stopFound : boundValue? interval.stop = some stop)
    (made : slice subject extent interval = .ok result) :
    ∃ number, result.value? = some number ∧
      ∀ value, sliceLength extentNumber start stop = .ok value → value = number := by
  unfold slice at made
  split_ifs at made with full
  · rw [Interval.isFull, Bool.and_eq_true, Option.isNone_iff_eq_none, Option.isNone_iff_eq_none]
      at full
    rw [full.1, boundValue?, Option.some.injEq] at startFound
    rw [full.2, boundValue?, Option.some.injEq] at stopFound
    subst startFound stopFound
    rw [Except.ok.injEq] at made
    subst made
    refine ⟨extentNumber, extentFound, fun value lengthOk => ?_⟩
    rw [((Waveform.slice_length_ok_iff _ _ _ _).1 lengthOk).2]
    exact sub_zero extentNumber
  · rw [extentFound, startFound, stopFound] at made
    obtain ⟨number, numberOk, same⟩ := (Outcome.bind_ok_iff _ _ _).1 made
    rw [Outcome.blame_ok_iff] at numberOk
    rw [Outcome.pure_ok_iff] at same
    subst same
    refine ⟨number, rfl, fun value lengthOk => ?_⟩
    rw [numberOk, Except.ok.injEq] at lengthOk
    exact lengthOk.symm

/-- What is remembered of a scalar: it is tidy, and its canonical form is a number. -/
def SettlesTidy (bindings : ScalarBindings) (given result : Scalar) : Prop :=
  given.tidy = true ∧ Settles bindings given result

variable {waveformRelation : Waveform → Waveform → Prop} {α : Type}

/-- The memory as scalars see it; what it holds of waveforms does not matter. -/
abbrev Numeric (bindings : ScalarBindings) (waveformRelation : Waveform → Waveform → Prop) :
    Memo → Prop :=
  Remembers (SettlesTidy bindings) waveformRelation

theorem keep_scalar_numeric {given result : Scalar} {memo : Memo} (tidied : given.tidy = true)
    (settles : Settles bindings given result)
    (remembers : Numeric bindings waveformRelation memo) :
    Numeric bindings waveformRelation (keepScalar given result memo) := by
  obtain ⟨number, found, only⟩ := settles
  have settles : Settles bindings given result := ⟨number, found, only⟩
  have resultTidy := number_tidy found
  refine ⟨?_, remembers.waveforms⟩
  refine (remembers.scalars.insert ⟨tidied, settles⟩ ?_).insert
    ⟨resultTidy, settles_number found⟩ ?_
  · exact fun other _ known equal => ⟨known.1, settles.of_same tidied known.1 equal⟩
  · exact fun other _ known equal =>
      ⟨known.1, (settles_number found).of_same resultTidy known.1 equal⟩

theorem remember_scalar_keeps {given : Scalar} {parts : Simplifying α}
    {simplify : α → Simplifying Scalar} {good : α → Prop} (tidied : given.tidy = true)
    (partsKeep : Keeps (Numeric bindings waveformRelation) parts good)
    (simplifyKeeps : ∀ canonicalParts, good canonicalParts →
      Keeps (Numeric bindings waveformRelation) (simplify canonicalParts)
        (Settles bindings given)) :
    Keeps (Numeric bindings waveformRelation) (rememberScalar given parts simplify)
      (Settles bindings given) := by
  apply Keeps.remembering _ _ partsKeep simplifyKeeps
  · intro memo remembers known found
    obtain ⟨other, equal, otherTidy, settles⟩ := remembers.scalars.find found
    exact settles.of_same otherTidy tidied (same_symm given other tidied equal)
  · intro result settles memo remembers
    exact keep_scalar_numeric tidied settles remembers

theorem scalars_keep {operands : List Scalar}
    (each : ∀ operand ∈ operands,
      Keeps (Numeric bindings waveformRelation) (scalar operand) (Settles bindings operand)) :
    Keeps (Numeric bindings waveformRelation) (scalars operands)
      (List.Forall₂ (Settles bindings) operands) := by
  induction operands with
  | nil => exact .pure List.Forall₂.nil
  | cons operand rest ih =>
      refine (each operand (by simp)).bind fun operand' settles => ?_
      refine (ih fun other member => each other (by simp [member])).bind fun rest' restSettle => ?_
      exact .pure (List.Forall₂.cons settles restSettle)

def SettlesBound (bindings : ScalarBindings) (given result : Option Scalar) : Prop :=
  ∃ number, boundValue? result = some number ∧
    ∀ value, evalBound bindings given = .ok value → value = number

theorem scalar_bound_keeps {bound : Option Scalar}
    (each : ∀ given ∈ bound,
      Keeps (Numeric bindings waveformRelation) (scalar given) (Settles bindings given)) :
    Keeps (Numeric bindings waveformRelation) (scalarBound bound) (SettlesBound bindings bound) := by
  cases bound with
  | none => exact .pure ⟨none, rfl, fun value valueOk => (Except.ok.inj valueOk).symm⟩
  | some given =>
      refine (each given rfl).bind fun bound' settles => .pure ?_
      obtain ⟨number, found, only⟩ := settles
      refine ⟨some number, by rw [boundValue?, found]; rfl, fun value valueOk => ?_⟩
      rw [evalBound, Outcome.bind_ok_iff] at valueOk
      obtain ⟨known, knownOk, same⟩ := valueOk
      rw [Outcome.pure_ok_iff] at same
      rw [← same, only known knownOk]

theorem numbers_of_settled {operands results : List Scalar}
    (settle : List.Forall₂ (Settles bindings) operands results) :
    ∃ numbers, Numbers results numbers ∧
      ∀ values, evalAll bindings operands = .ok values → values = numbers := by
  induction settle with
  | nil => exact ⟨[], List.Forall₂.nil, fun values same => (Except.ok.inj same).symm⟩
  | cons settles _ ih =>
      obtain ⟨numbers, each, only⟩ := ih
      obtain ⟨number, found, onlyFirst⟩ := settles
      refine ⟨number :: numbers, List.Forall₂.cons found each, fun values valuesOk => ?_⟩
      simp only [evalAll, Outcome.bind_ok_iff, Outcome.pure_ok_iff] at valuesOk
      obtain ⟨value, valueOk, others, othersOk, rfl⟩ := valuesOk
      rw [onlyFirst value valueOk, only others othersOk]

theorem slice_parts_keep {extent : Scalar} {start stop : Option Scalar}
    (extentKeeps :
      Keeps (Numeric bindings waveformRelation) (scalar extent) (Settles bindings extent))
    (startKeeps :
      Keeps (Numeric bindings waveformRelation) (scalarBound start) (SettlesBound bindings start))
    (stopKeeps :
      Keeps (Numeric bindings waveformRelation) (scalarBound stop) (SettlesBound bindings stop)) :
    Keeps (Numeric bindings waveformRelation)
      (do
        let extent' ← scalar extent
        let start' ← scalarBound start
        let stop' ← scalarBound stop
        return (extent', Interval.mk start' stop'))
      fun result => Settles bindings extent result.1 ∧
        SettlesBound bindings start result.2.start ∧
        SettlesBound bindings stop result.2.stop := by
  refine extentKeeps.bind fun extent' extentSettles => ?_
  refine startKeeps.bind fun start' startSettles => ?_
  exact stopKeeps.bind fun stop' stopSettles => .pure ⟨extentSettles, startSettles, stopSettles⟩

theorem scalar_keeps (given : Scalar) (fixed : given.Fixed) :
    Keeps (Numeric bindings waveformRelation) (scalar given) (Settles bindings given) := by
  have tidied := fixed.tidied
  induction given using Scalar.parts_induction with
  | literal value =>
      rw [scalar]
      exact remember_scalar_keeps tidied (.pure trivial) fun _ (_ : True) =>
        .pure (settles_number rfl)
  | named name => exact absurd fixed (not_fixed_variable name)
  | assigned name value =>
      rw [scalar]
      exact remember_scalar_keeps tidied (.pure trivial) fun _ (_ : True) =>
        .pure (settles_number rfl)
  | negative operand ih =>
      rw [scalar]
      have operandFixed := (fixed_negative_iff _).1 fixed
      refine remember_scalar_keeps tidied (ih operandFixed operandFixed.tidied)
        fun operand' settles => .pure ?_
      obtain ⟨number, found, only⟩ := settles
      refine ⟨-number, negative_number found, fun value valueOk => ?_⟩
      obtain ⟨inner, innerOk, rfl⟩ := (eval_negative_ok_iff _ _).1 valueOk
      rw [only inner innerOk]
  | add left right leftIh rightIh =>
      rw [scalar]
      obtain ⟨leftFixed, rightFixed⟩ := (fixed_add_iff _ _).1 fixed
      refine remember_scalar_keeps tidied
        ((leftIh leftFixed leftFixed.tidied).pair (rightIh rightFixed rightFixed.tidied)) ?_
      rintro ⟨left', right'⟩ ⟨⟨first, leftFound, leftOnly⟩, second, rightFound, rightOnly⟩
      refine .pure ⟨first + second, sum_number leftFound rightFound, fun value valueOk => ?_⟩
      obtain ⟨leftValue, rightValue, leftOk, rightOk, rfl⟩ := (eval_add_ok_iff _ _ _).1 valueOk
      rw [leftOnly leftValue leftOk, rightOnly rightValue rightOk]
  | mul left right leftIh rightIh =>
      rw [scalar]
      obtain ⟨leftFixed, rightFixed⟩ := (fixed_mul_iff _ _).1 fixed
      refine remember_scalar_keeps tidied
        ((leftIh leftFixed leftFixed.tidied).pair (rightIh rightFixed rightFixed.tidied)) ?_
      rintro ⟨left', right'⟩ ⟨⟨first, leftFound, leftOnly⟩, second, rightFound, rightOnly⟩
      refine .pure ⟨first * second, product_number leftFound rightFound, fun value valueOk => ?_⟩
      obtain ⟨leftValue, rightValue, leftOk, rightOk, rfl⟩ := (eval_mul_ok_iff _ _ _).1 valueOk
      rw [leftOnly leftValue leftOk, rightOnly rightValue rightOk]
  | div left right leftIh rightIh =>
      rw [scalar]
      obtain ⟨leftFixed, rightFixed⟩ := (fixed_div_iff _ _).1 fixed
      refine remember_scalar_keeps tidied
        ((leftIh leftFixed leftFixed.tidied).pair (rightIh rightFixed rightFixed.tidied)) ?_
      rintro ⟨left', right'⟩ ⟨⟨first, leftFound, leftOnly⟩, second, rightFound, rightOnly⟩
      refine .lift fun result made => ?_
      obtain ⟨number, found, divided⟩ := quotient_number leftFound rightFound made
      refine ⟨number, found, fun value valueOk => ?_⟩
      obtain ⟨leftValue, rightValue, leftOk, rightOk, valueDivided⟩ :=
        (eval_div_ok_iff _ _ _).1 valueOk
      rw [leftOnly leftValue leftOk, rightOnly rightValue rightOk, divided, Option.some.injEq]
        at valueDivided
      exact valueDivided.symm
  | min operands ih =>
      rw [scalar]
      obtain ⟨_, operandsFixed⟩ := (fixed_min_iff _).1 fixed
      refine remember_scalar_keeps tidied (scalars_keep fun operand member =>
        ih operand member (operandsFixed operand member) (operandsFixed operand member).tidied)
        fun operands' settle => .lift fun result made => ?_
      obtain ⟨numbers, each, only⟩ := numbers_of_settled settle
      obtain ⟨first, rest, rfl, found⟩ := minimum_number each made
      refine ⟨_, found, fun value valueOk => ?_⟩
      rw [eval, Outcome.bind_ok_iff] at valueOk
      obtain ⟨values, valuesOk, chosen⟩ := valueOk
      rw [only values valuesOk] at chosen
      exact (Except.ok.inj chosen).symm
  | max operands ih =>
      rw [scalar]
      obtain ⟨_, operandsFixed⟩ := (fixed_max_iff _).1 fixed
      refine remember_scalar_keeps tidied (scalars_keep fun operand member =>
        ih operand member (operandsFixed operand member) (operandsFixed operand member).tidied)
        fun operands' settle => .lift fun result made => ?_
      obtain ⟨numbers, each, only⟩ := numbers_of_settled settle
      obtain ⟨first, rest, rfl, found⟩ := maximum_number each made
      refine ⟨_, found, fun value valueOk => ?_⟩
      rw [eval, Outcome.bind_ok_iff] at valueOk
      obtain ⟨values, valuesOk, chosen⟩ := valueOk
      rw [only values valuesOk] at chosen
      exact (Except.ok.inj chosen).symm
  | slice extent start stop extentIh startIh stopIh =>
      rw [scalar]
      obtain ⟨extentFixed, startFixed, stopFixed⟩ := (fixed_slice_iff _ _ _).1 fixed
      have startKeeps := scalar_bound_keeps fun bound member =>
        startIh bound member (startFixed bound member) (startFixed bound member).tidied
      have stopKeeps := scalar_bound_keeps fun bound member =>
        stopIh bound member (stopFixed bound member) (stopFixed bound member).tidied
      refine remember_scalar_keeps tidied (slice_parts_keep
        (extentIh extentFixed extentFixed.tidied) startKeeps stopKeeps) ?_
      rintro ⟨extent', interval⟩ ⟨⟨extentNumber, extentFound, extentOnly⟩,
        ⟨startNumber, startFound, startOnly⟩, stopNumber, stopFound, stopOnly⟩
      refine .lift fun result made => ?_
      obtain ⟨number, found, only⟩ := slice_number extentFound startFound stopFound made
      refine ⟨number, found, fun value valueOk => only value ?_⟩
      obtain ⟨extentValue, startValue, stopValue, extentOk, startOk, stopOk, length⟩ :=
        (eval_slice_ok_iff _ _ _ _).1 valueOk
      rwa [extentOnly extentValue extentOk, startOnly startValue startOk,
        stopOnly stopValue stopOk] at length

theorem interval_keeps (given : Interval) (fixed : given.Fixed) :
    Keeps (Numeric bindings waveformRelation) (interval given) fun result =>
      SettlesBound bindings given.start result.start ∧
        SettlesBound bindings given.stop result.stop := by
  obtain ⟨startFixed, stopFixed⟩ := (Interval.each_iff given).1 fixed
  refine (scalar_bound_keeps fun bound member =>
    scalar_keeps bound (startFixed bound member)).bind fun start' startSettles => ?_
  refine (scalar_bound_keeps fun bound member =>
    scalar_keeps bound (stopFixed bound member)).bind fun stop' stopSettles => ?_
  exact .pure ⟨startSettles, stopSettles⟩

end Analog.Canonical
