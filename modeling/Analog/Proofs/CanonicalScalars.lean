import Analog.Proofs.RememberedWork
import Analog.Proofs.ScalarRules

/-!
# Canonical scalars have the same value

The canonical form of a scalar that has a value has the same value, if no quotient by one in
the scalar loses digits. The rules of simplification keep this property along with the
value, so that it holds of whatever is remembered. Scalars without quotients have it.
-/

set_option autoImplicit false

namespace Analog.Scalar

mutual

def quotientFree : Scalar → Bool
  | .literal _ => true
  | .variable _ => true
  | .assigned _ _ => true
  | .negative operand => quotientFree operand
  | .add left right => quotientFree left && quotientFree right
  | .mul left right => quotientFree left && quotientFree right
  | .div _ _ => false
  | .min operands => quotientFreeAll operands
  | .max operands => quotientFreeAll operands
  | .slice extent start stop =>
    quotientFree extent && quotientFreeBound start && quotientFreeBound stop

def quotientFreeAll : List Scalar → Bool
  | [] => true
  | operand :: rest => quotientFree operand && quotientFreeAll rest

def quotientFreeBound : Option Scalar → Bool
  | none => true
  | some bound => quotientFree bound

end

mutual

def ExactByOne (bindings : ScalarBindings) : Scalar → Prop
  | .literal _ => True
  | .variable _ => True
  | .assigned _ _ => True
  | .negative operand => ExactByOne bindings operand
  | .add left right => ExactByOne bindings left ∧ ExactByOne bindings right
  | .mul left right => ExactByOne bindings left ∧ ExactByOne bindings right
  | .div left right => (ExactByOne bindings left ∧ ExactByOne bindings right) ∧
    ∀ value, right.eval bindings = .ok 1 → left.eval bindings = .ok value →
      value.div? 1 = some value
  | .min operands => ExactByOneAll bindings operands
  | .max operands => ExactByOneAll bindings operands
  | .slice extent start stop => ExactByOne bindings extent ∧ ExactByOneBound bindings start ∧
    ExactByOneBound bindings stop

def ExactByOneAll (bindings : ScalarBindings) : List Scalar → Prop
  | [] => True
  | operand :: rest => ExactByOne bindings operand ∧ ExactByOneAll bindings rest

def ExactByOneBound (bindings : ScalarBindings) : Option Scalar → Prop
  | none => True
  | some bound => ExactByOne bindings bound

end

variable {bindings : ScalarBindings}

theorem quotient_free_all_iff (operands : List Scalar) :
    quotientFreeAll operands = true ↔ ∀ operand ∈ operands, operand.quotientFree = true := by
  induction operands with
  | nil => simp [quotientFreeAll]
  | cons first rest ih => simp [quotientFreeAll, ih]

theorem exact_by_one_all_iff (operands : List Scalar) :
    ExactByOneAll bindings operands ↔ ∀ operand ∈ operands, operand.ExactByOne bindings := by
  induction operands with
  | nil => simp [ExactByOneAll]
  | cons first rest ih => simp [ExactByOneAll, ih]

theorem exact_of_quotient_free (scalar : Scalar) (free : scalar.quotientFree = true) :
    scalar.ExactByOne bindings := by
  induction scalar using Scalar.parts_induction with
  | literal value => trivial
  | named name => trivial
  | assigned name value => trivial
  | negative operand ih => exact ih free
  | add left right leftIh rightIh =>
      rw [quotientFree, Bool.and_eq_true] at free
      exact ⟨leftIh free.1, rightIh free.2⟩
  | mul left right leftIh rightIh =>
      rw [quotientFree, Bool.and_eq_true] at free
      exact ⟨leftIh free.1, rightIh free.2⟩
  | div left right _ _ => exact absurd free (by simp [quotientFree])
  | min operands ih =>
      rw [quotientFree, quotient_free_all_iff] at free
      rw [ExactByOne, exact_by_one_all_iff]
      exact fun operand member => ih operand member (free operand member)
  | max operands ih =>
      rw [quotientFree, quotient_free_all_iff] at free
      rw [ExactByOne, exact_by_one_all_iff]
      exact fun operand member => ih operand member (free operand member)
  | slice extent start stop extentIh startIh stopIh =>
      rw [quotientFree, Bool.and_eq_true, Bool.and_eq_true] at free
      refine ⟨extentIh free.1.1, ?_, ?_⟩
      · cases start with
        | none => trivial
        | some bound => exact startIh bound rfl free.1.2
      · cases stop with
        | none => trivial
        | some bound => exact stopIh bound rfl free.2

/-- A scalar that is tidy and exact and has the given value. -/
structure Means (bindings : ScalarBindings) (scalar : Scalar) (value : Decimal) : Prop where
  tidied : scalar.tidy = true
  exact : scalar.ExactByOne bindings
  evaluates : scalar.eval bindings = .ok value

theorem means_iff (scalar : Scalar) (value : Decimal) :
    Means bindings scalar value ↔ Known bindings scalar value ∧ scalar.ExactByOne bindings :=
  ⟨fun means => ⟨⟨means.tidied, means.evaluates⟩, means.exact⟩,
    fun both => ⟨both.1.tidied, both.2, both.1.evaluates⟩⟩

theorem Means.isKnown {scalar : Scalar} {value : Decimal} (means : Means bindings scalar value) :
    Known bindings scalar value :=
  ⟨means.tidied, means.evaluates⟩

theorem literal_means (value : Decimal) : Means bindings (literal value) value :=
  ⟨rfl, trivial, rfl⟩

theorem Means.unique {scalar : Scalar} {first second : Decimal}
    (firstMeans : Means bindings scalar first) (secondMeans : Means bindings scalar second) :
    first = second := by
  have same := firstMeans.evaluates.symm.trans secondMeans.evaluates
  rwa [Except.ok.injEq] at same

theorem Means.of_same {scalar other : Scalar} {first second : Decimal}
    (firstMeans : Means bindings scalar first) (secondMeans : Means bindings other second)
    (equal : scalar.same other = true) : first = second :=
  firstMeans.isKnown.of_same secondMeans.isKnown equal

theorem Means.known {scalar : Scalar} {value known : Decimal} (means : Means bindings scalar value)
    (found : scalar.value? = some known) : known = value :=
  means.isKnown.number found

theorem Means.zero {scalar : Scalar} {value : Decimal} (means : Means bindings scalar value)
    (zero : scalar.isZero = true) : value = 0 :=
  means.isKnown.zero zero

theorem Means.one {scalar : Scalar} {value : Decimal} (means : Means bindings scalar value)
    (one : scalar.isOne = true) : value = 1 :=
  means.isKnown.one one

theorem negative_means_iff (operand : Scalar) (value : Decimal) :
    Means bindings (negative operand) value ↔ Means bindings operand (-value) := by
  rw [means_iff, means_iff, negative_known_iff, ExactByOne]

theorem add_means_iff (left right : Scalar) (value : Decimal) :
    Means bindings (add left right) value ↔
      ∃ first second, Means bindings left first ∧ Means bindings right second ∧
        value = first + second := by
  simp only [means_iff, add_known_iff, ExactByOne]
  constructor
  · rintro ⟨⟨first, second, leftKnown, rightKnown, same⟩, leftExact, rightExact⟩
    exact ⟨first, second, ⟨leftKnown, leftExact⟩, ⟨rightKnown, rightExact⟩, same⟩
  · rintro ⟨first, second, ⟨leftKnown, leftExact⟩, ⟨rightKnown, rightExact⟩, same⟩
    exact ⟨⟨first, second, leftKnown, rightKnown, same⟩, leftExact, rightExact⟩

theorem mul_means_iff (left right : Scalar) (value : Decimal) :
    Means bindings (mul left right) value ↔
      ∃ first second, Means bindings left first ∧ Means bindings right second ∧
        value = first * second := by
  simp only [means_iff, mul_known_iff, ExactByOne]
  constructor
  · rintro ⟨⟨first, second, leftKnown, rightKnown, same⟩, leftExact, rightExact⟩
    exact ⟨first, second, ⟨leftKnown, leftExact⟩, ⟨rightKnown, rightExact⟩, same⟩
  · rintro ⟨first, second, ⟨leftKnown, leftExact⟩, ⟨rightKnown, rightExact⟩, same⟩
    exact ⟨⟨first, second, leftKnown, rightKnown, same⟩, leftExact, rightExact⟩

theorem div_means_iff (left right : Scalar) (value : Decimal) :
    Means bindings (div left right) value ↔
      ∃ first second, Means bindings left first ∧ Means bindings right second ∧
        first.div? second = some value ∧ (second = 1 → value = first) := by
  simp only [means_iff, div_known_iff, ExactByOne]
  constructor
  · rintro ⟨⟨first, second, leftKnown, rightKnown, divided⟩, ⟨leftExact, rightExact⟩, byOne⟩
    refine ⟨first, second, ⟨leftKnown, leftExact⟩, ⟨rightKnown, rightExact⟩, divided, ?_⟩
    rintro rfl
    have kept := byOne first rightKnown.evaluates leftKnown.evaluates
    rwa [divided, Option.some.injEq] at kept
  · rintro ⟨first, second, ⟨leftKnown, leftExact⟩, ⟨rightKnown, rightExact⟩, divided, byOne⟩
    refine ⟨⟨first, second, leftKnown, rightKnown, divided⟩, ⟨leftExact, rightExact⟩, ?_⟩
    intro number one numberOk
    rw [rightKnown.evaluates, Except.ok.injEq] at one
    rw [leftKnown.evaluates, Except.ok.injEq] at numberOk
    rw [one] at divided byOne
    rw [← numberOk, divided, byOne rfl]

def Proper (bindings : ScalarBindings) (operands : List Scalar) : Prop :=
  ∀ operand ∈ operands, operand.tidy = true ∧ operand.ExactByOne bindings

theorem proper_iff (operands : List Scalar) :
    Proper bindings operands ↔ (∀ operand ∈ operands, operand.tidy = true) ∧
      ∀ operand ∈ operands, operand.ExactByOne bindings :=
  ⟨fun proper => ⟨fun operand member => (proper operand member).1,
      fun operand member => (proper operand member).2⟩,
    fun both operand member => ⟨both.1 operand member, both.2 operand member⟩⟩

theorem min_means_iff (operands : List Scalar) (value : Decimal) :
    Means bindings (min operands) value ↔
      distinct operands = true ∧ Proper bindings operands ∧
        Chosen (· ≤ ·) bindings operands value := by
  rw [means_iff, min_known_iff, ExactByOne, exact_by_one_all_iff, proper_iff]
  tauto

theorem max_means_iff (operands : List Scalar) (value : Decimal) :
    Means bindings (max operands) value ↔
      distinct operands = true ∧ Proper bindings operands ∧
        Chosen (· ≥ ·) bindings operands value := by
  rw [means_iff, max_known_iff, ExactByOne, exact_by_one_all_iff, proper_iff]
  tauto

def BoundMeans (bindings : ScalarBindings) : Option Scalar → Option Decimal → Prop :=
  Option.Rel (Means bindings)

theorem bound_means_iff_known (bound : Option Scalar) (number : Option Decimal) :
    BoundMeans bindings bound number ↔
      BoundKnown bindings bound number ∧ ExactByOneBound bindings bound := by
  cases bound <;> cases number <;> simp [BoundMeans, BoundKnown, ExactByOneBound, means_iff]

theorem bound_means_iff (bound : Option Scalar) (number : Option Decimal) :
    BoundMeans bindings bound number ↔ tidyBound bound = true ∧ ExactByOneBound bindings bound ∧
      evalBound bindings bound = .ok number := by
  rw [bound_means_iff_known, bound_known_iff]
  tauto

theorem slice_means_iff (extent : Scalar) (start stop : Option Scalar) (value : Decimal) :
    Means bindings (slice extent start stop) value ↔
      ∃ extentValue startValue stopValue, Means bindings extent extentValue ∧
        BoundMeans bindings start startValue ∧ BoundMeans bindings stop stopValue ∧
        sliceLength extentValue startValue stopValue = .ok value := by
  simp only [means_iff, bound_means_iff_known, slice_known_iff, ExactByOne]
  constructor
  · rintro ⟨⟨extentValue, startValue, stopValue, extentKnown, startKnown, stopKnown, length⟩,
      extentExact, startExact, stopExact⟩
    exact ⟨extentValue, startValue, stopValue, ⟨extentKnown, extentExact⟩,
      ⟨startKnown, startExact⟩, ⟨stopKnown, stopExact⟩, length⟩
  · rintro ⟨extentValue, startValue, stopValue, ⟨extentKnown, extentExact⟩,
      ⟨startKnown, startExact⟩, ⟨stopKnown, stopExact⟩, length⟩
    exact ⟨⟨extentValue, startValue, stopValue, extentKnown, startKnown, stopKnown, length⟩,
      extentExact, startExact, stopExact⟩

end Analog.Scalar

namespace Analog.Canonical

open Scalar

variable {bindings : ScalarBindings}

theorem negative_means {operand : Scalar} {value : Decimal} (means : Means bindings operand value) :
    Means bindings (negative operand) (-value) := by
  rw [means_iff] at means ⊢
  refine ⟨negative_known means.1, ?_⟩
  unfold negative
  split
  · trivial
  · split
    · exact means.2
    · exact means.2

theorem sum_means {left right : Scalar} {first second : Decimal}
    (leftMeans : Means bindings left first) (rightMeans : Means bindings right second) :
    Means bindings (sum left right) (first + second) := by
  rw [means_iff]
  refine ⟨sum_known leftMeans.isKnown rightMeans.isKnown, ?_⟩
  fun_induction sum left right generalizing first second with
  | case1 => trivial
  | case2 => exact rightMeans.exact
  | case3 => exact leftMeans.exact
  | case4 => trivial
  | case5 leftInner rightInner _ _ _ _ ih =>
      rw [negative_means_iff] at leftMeans rightMeans
      exact (negative_means ((means_iff _ _).2
        ⟨sum_known leftMeans.isKnown rightMeans.isKnown, ih leftMeans rightMeans⟩)).exact
  | case6 => exact ⟨leftMeans.exact, rightMeans.exact⟩

theorem product_means {left right : Scalar} {first second : Decimal}
    (leftMeans : Means bindings left first) (rightMeans : Means bindings right second) :
    Means bindings (product left right) (first * second) := by
  rw [means_iff]
  refine ⟨product_known leftMeans.isKnown rightMeans.isKnown, ?_⟩
  unfold product
  split
  · trivial
  · split_ifs
    · trivial
    · exact rightMeans.exact
    · exact leftMeans.exact
    · exact ⟨leftMeans.exact, rightMeans.exact⟩

theorem quotient_means {left right : Scalar} {first second value : Decimal}
    (subject : Unit → String) (leftMeans : Means bindings left first)
    (rightMeans : Means bindings right second) (divided : first.div? second = some value)
    (byOne : second = 1 → value = first) :
    ∃ result, quotient subject left right = .ok result ∧ Means bindings result value := by
  obtain ⟨result, made, known⟩ := quotient_known subject leftMeans.isKnown rightMeans.isKnown divided
    fun _ one => byOne (rightMeans.one one)
  refine ⟨result, made, (means_iff _ _).2 ⟨known, ?_⟩⟩
  obtain ⟨_, ⟨_, _, number, _, _, _, rfl⟩ |
    ⟨_, ⟨_, rfl⟩ | ⟨_, _, rfl⟩ | ⟨_, _, rfl⟩⟩⟩ := quotient_cases made
  · trivial
  · exact leftMeans.exact
  · trivial
  · exact ((div_means_iff _ _ _).2 ⟨first, second, leftMeans, rightMeans, divided, byOne⟩).exact

theorem of_members_exact {build : List Scalar → Scalar}
    (built : ∀ operands : List Scalar,
      (∀ operand ∈ operands, operand.ExactByOne bindings) → (build operands).ExactByOne bindings)
    {members : List Scalar} {result : Scalar}
    (exact : ∀ member ∈ members, member.ExactByOne bindings)
    (made : ofMembers build members = .ok result) : result.ExactByOne bindings := by
  have uniqueExact : ∀ member ∈ unique members, member.ExactByOne bindings :=
    fun member found => exact member (mem_of_mem_unique found)
  rcases of_members_cases made with single | ⟨_, rfl⟩
  · exact uniqueExact result (by simp [single])
  · exact built _ uniqueExact

theorem spliced_exact {choose : Decimal → Decimal → Decimal} {splice : Scalar → List Scalar}
    {operands : List Scalar} (exact : ∀ operand ∈ operands, ∀ part ∈ splice operand,
      part.ExactByOne bindings) :
    ∀ member ∈ foldConstants choose (operands.flatMap splice), member.ExactByOne bindings := by
  intro member found
  rcases mem_fold_constants found with kept | ⟨number, rfl⟩
  · obtain ⟨operand, operandMember, partMember⟩ := List.mem_flatMap.1 kept
    exact exact operand operandMember member partMember
  · trivial

theorem minimum_means {operands : List Scalar} {value : Decimal} (subject : Unit → String)
    (each : ∀ operand ∈ operands, ∃ number, Means bindings operand number)
    (chosen : Chosen (· ≤ ·) bindings operands value) :
    ∃ result, minimum subject operands = .ok result ∧ Means bindings result value := by
  obtain ⟨result, made, known⟩ := minimum_known subject
    (fun operand member => (each operand member).imp fun _ means => means.isKnown) chosen
  refine ⟨result, made, (means_iff _ _).2 ⟨known, ?_⟩⟩
  unfold minimum at made
  rw [if_neg (not_empty_of_chosen chosen)] at made
  refine of_members_exact (fun some exact => ?_) (spliced_exact fun operand member => ?_) made
  · rwa [ExactByOne, exact_by_one_all_iff]
  · obtain ⟨number, means⟩ := each operand member
    rcases splice_minimum_cases operand with alone | ⟨inner, rfl, same⟩
    · simpa [alone] using means.exact
    · rw [same, ← exact_by_one_all_iff]
      exact means.exact

theorem maximum_means {operands : List Scalar} {value : Decimal} (subject : Unit → String)
    (each : ∀ operand ∈ operands, ∃ number, Means bindings operand number)
    (chosen : Chosen (· ≥ ·) bindings operands value) :
    ∃ result, maximum subject operands = .ok result ∧ Means bindings result value := by
  obtain ⟨result, made, known⟩ := maximum_known subject
    (fun operand member => (each operand member).imp fun _ means => means.isKnown) chosen
  refine ⟨result, made, (means_iff _ _).2 ⟨known, ?_⟩⟩
  unfold maximum at made
  rw [if_neg (not_empty_of_chosen chosen)] at made
  refine of_members_exact (fun some exact => ?_) (spliced_exact fun operand member => ?_) made
  · rwa [ExactByOne, exact_by_one_all_iff]
  · obtain ⟨number, means⟩ := each operand member
    rcases splice_maximum_cases operand with alone | ⟨inner, rfl, same⟩
    · simpa [alone] using means.exact
    · rw [same, ← exact_by_one_all_iff]
      exact means.exact

theorem slice_means {extent : Scalar} {interval : Interval} {extentValue value : Decimal}
    {startValue stopValue : Option Decimal} (subject : Unit → String)
    (extentMeans : Means bindings extent extentValue)
    (startMeans : BoundMeans bindings interval.start startValue)
    (stopMeans : BoundMeans bindings interval.stop stopValue)
    (length : sliceLength extentValue startValue stopValue = .ok value) :
    ∃ result, slice subject extent interval = .ok result ∧ Means bindings result value := by
  rw [bound_means_iff_known] at startMeans stopMeans
  obtain ⟨result, made, known⟩ :=
    slice_known subject extentMeans.isKnown startMeans.1 stopMeans.1 length
  refine ⟨result, made, (means_iff _ _).2 ⟨known, ?_⟩⟩
  obtain ⟨_, rfl⟩ | ⟨_, ⟨_, _, _, number, _, _, _, _, rfl⟩ | ⟨_, rfl⟩⟩ := slice_cases made
  · exact extentMeans.exact
  · trivial
  · exact ⟨extentMeans.exact, startMeans.2, stopMeans.2⟩

def SameValue (bindings : ScalarBindings) (given result : Scalar) : Prop :=
  ∃ value, Means bindings given value ∧ Means bindings result value

/-- Everything remembered relates a node to its result. -/
structure Remembers (scalarRelation : Scalar → Scalar → Prop)
    (waveformRelation : Waveform → Waveform → Prop) (memo : Memo) : Prop where
  scalars : memo.scalars.Each scalarRelation
  waveforms : memo.waveforms.Each waveformRelation

theorem remembers_nothing {scalarRelation : Scalar → Scalar → Prop}
    {waveformRelation : Waveform → Waveform → Prop} :
    Remembers scalarRelation waveformRelation {} :=
  ⟨KeyedMap.each_empty, KeyedMap.each_empty⟩

variable {waveformRelation : Waveform → Waveform → Prop} {α : Type}

theorem keep_scalar_remembers {given result : Scalar} {value : Decimal} {memo : Memo}
    (givenMeans : Means bindings given value) (resultMeans : Means bindings result value)
    (remembers : Remembers (SameValue bindings) waveformRelation memo) :
    Remembers (SameValue bindings) waveformRelation (keepScalar given result memo) := by
  have replaces : ∀ key, Means bindings key value → ∀ other old, SameValue bindings other old →
      Scalar.same key other = true → SameValue bindings other result := by
    rintro key keyMeans other old ⟨number, otherMeans, _⟩ equal
    rw [← keyMeans.of_same otherMeans equal] at otherMeans
    exact ⟨value, otherMeans, resultMeans⟩
  refine ⟨?_, remembers.waveforms⟩
  refine (remembers.scalars.insert ⟨value, givenMeans, resultMeans⟩ ?_).insert
    ⟨value, resultMeans, resultMeans⟩ ?_
  · exact replaces given givenMeans
  · exact replaces result resultMeans

theorem remember_scalar_yields {given : Scalar} {value : Decimal} {parts : Simplifying α}
    {simplify : α → Simplifying Scalar} {good : α → Prop} (means : Means bindings given value)
    (partsYield : Yields (Remembers (SameValue bindings) waveformRelation) parts good)
    (simplifyYields : ∀ canonicalParts, good canonicalParts →
      Yields (Remembers (SameValue bindings) waveformRelation) (simplify canonicalParts)
        (Means bindings · value)) :
    Yields (Remembers (SameValue bindings) waveformRelation) (rememberScalar given parts simplify)
      (Means bindings · value) := by
  apply Yields.remembering _ _ partsYield simplifyYields
  · intro memo remembers known found
    obtain ⟨other, equal, number, otherMeans, knownMeans⟩ := remembers.scalars.find found
    rw [means.of_same otherMeans equal]
    exact knownMeans
  · intro result resultMeans memo remembers
    exact keep_scalar_remembers means resultMeans remembers

/-- The memory as scalars see it; what it holds of waveforms does not matter. -/
abbrev Faithful (bindings : ScalarBindings) (waveformRelation : Waveform → Waveform → Prop) :
    Memo → Prop :=
  Remembers (SameValue bindings) waveformRelation

theorem scalars_yield {operands : List Scalar}
    (each : ∀ operand ∈ operands, ∀ value, Means bindings operand value →
      Yields (Faithful bindings waveformRelation) (scalar operand) (Means bindings · value))
    {values : List Decimal} (mean : List.Forall₂ (Means bindings) operands values) :
    Yields (Faithful bindings waveformRelation) (scalars operands)
      fun results => List.Forall₂ (Means bindings) results values := by
  induction mean with
  | nil => exact .pure List.Forall₂.nil
  | cons operandMeans _ ih =>
      refine (each _ (by simp) _ operandMeans).bind fun operand' operandMeans' => ?_
      refine (ih fun other member => each other (by simp [member])).bind fun rest' restMean => ?_
      exact .pure (List.Forall₂.cons operandMeans' restMean)

theorem scalar_bound_yields {bound : Option Scalar} {value : Option Decimal}
    (each : ∀ given ∈ bound, ∀ number, Means bindings given number →
      Yields (Faithful bindings waveformRelation) (scalar given) (Means bindings · number))
    (means : BoundMeans bindings bound value) :
    Yields (Faithful bindings waveformRelation) (scalarBound bound)
      fun result => BoundMeans bindings result value := by
  cases means with
  | none => exact .pure .none
  | some boundMeans =>
      exact (each _ rfl _ boundMeans).bind fun bound' boundMeans' => .pure (.some boundMeans')

/-- A choice among operands is the choice among operands of the same values. -/
theorem chosen_of_means {before : Decimal → Decimal → Prop} {operands others : List Scalar}
    {values : List Decimal} {value : Decimal}
    (mean : List.Forall₂ (Means bindings) operands values)
    (othersMean : List.Forall₂ (Means bindings) others values)
    (chosen : Chosen before bindings operands value) : Chosen before bindings others value := by
  refine chosen_of_related (Outcome.related_of_common mean.flip othersMean.flip
    fun known operand other operandMeans otherMeans number numberOk => ?_) chosen
  rw [operandMeans.evaluates, Except.ok.injEq] at numberOk
  rw [← numberOk]
  exact otherMeans.evaluates

theorem values_of_chosen {before : Decimal → Decimal → Prop} {operands : List Scalar}
    {value : Decimal} (proper : Proper bindings operands)
    (chosen : Chosen before bindings operands value) :
    ∃ values, List.Forall₂ (Means bindings) operands values := by
  have each : ∀ operand ∈ operands, ∃ number, Means bindings operand number := by
    intro operand member
    obtain ⟨number, numberOk, _⟩ := chosen.all operand member
    exact ⟨number, (proper operand member).1, (proper operand member).2, numberOk⟩
  clear chosen proper
  induction operands with
  | nil => exact ⟨[], List.Forall₂.nil⟩
  | cons operand rest ih =>
      obtain ⟨values, mean⟩ := ih fun other member => each other (by simp [member])
      obtain ⟨number, means⟩ := each operand (by simp)
      exact ⟨number :: values, List.Forall₂.cons means mean⟩

theorem each_means {operands : List Scalar} {values : List Decimal}
    (mean : List.Forall₂ (Means bindings) operands values) :
    ∀ operand ∈ operands, ∃ number, Means bindings operand number := by
  intro operand member
  obtain ⟨number, _, means⟩ := Outcome.target_of_mem mean member
  exact ⟨number, means⟩

theorem slice_parts_yield {extent : Scalar} {start stop : Option Scalar} {extentValue : Decimal}
    {startValue stopValue : Option Decimal}
    (extentYields :
      Yields (Faithful bindings waveformRelation) (scalar extent) (Means bindings · extentValue))
    (startYields : Yields (Faithful bindings waveformRelation) (scalarBound start)
      (BoundMeans bindings · startValue))
    (stopYields : Yields (Faithful bindings waveformRelation) (scalarBound stop)
      (BoundMeans bindings · stopValue)) :
    Yields (Faithful bindings waveformRelation)
      (do
        let extent' ← scalar extent
        let start' ← scalarBound start
        let stop' ← scalarBound stop
        return (extent', Interval.mk start' stop'))
      fun result => Means bindings result.1 extentValue ∧
        BoundMeans bindings result.2.start startValue ∧
        BoundMeans bindings result.2.stop stopValue := by
  refine extentYields.bind fun extent' extentMeans => ?_
  refine startYields.bind fun start' startMeans => ?_
  exact stopYields.bind fun stop' stopMeans => .pure ⟨extentMeans, startMeans, stopMeans⟩

/-- The canonical form of a scalar has the value of the scalar. -/
theorem scalar_yields (given : Scalar) (value : Decimal) (means : Means bindings given value) :
    Yields (Faithful bindings waveformRelation) (scalar given) (Means bindings · value) := by
  induction given using Scalar.parts_induction generalizing value with
  | literal number =>
      rw [scalar]
      exact remember_scalar_yields means (.pure trivial) fun _ (_ : True) => .pure means
  | named name =>
      rw [scalar]
      exact remember_scalar_yields means (.pure trivial) fun _ (_ : True) => .pure means
  | assigned name number =>
      rw [scalar]
      exact remember_scalar_yields means (.pure trivial) fun _ (_ : True) => .pure means
  | negative operand ih =>
      rw [scalar]
      refine remember_scalar_yields means (ih _ ((negative_means_iff _ _).1 means))
        fun operand' operandMeans => ?_
      have result := negative_means operandMeans
      rw [neg_neg] at result
      exact .pure result
  | add left right leftIh rightIh =>
      rw [scalar]
      obtain ⟨first, second, leftMeans, rightMeans, rfl⟩ := (add_means_iff _ _ _).1 means
      refine remember_scalar_yields means
        ((leftIh first leftMeans).pair (rightIh second rightMeans)) ?_
      rintro ⟨left', right'⟩ ⟨leftMeans', rightMeans'⟩
      exact .pure (sum_means leftMeans' rightMeans')
  | mul left right leftIh rightIh =>
      rw [scalar]
      obtain ⟨first, second, leftMeans, rightMeans, rfl⟩ := (mul_means_iff _ _ _).1 means
      refine remember_scalar_yields means
        ((leftIh first leftMeans).pair (rightIh second rightMeans)) ?_
      rintro ⟨left', right'⟩ ⟨leftMeans', rightMeans'⟩
      exact .pure (product_means leftMeans' rightMeans')
  | div left right leftIh rightIh =>
      rw [scalar]
      obtain ⟨first, second, leftMeans, rightMeans, divided, byOne⟩ :=
        (div_means_iff _ _ _).1 means
      refine remember_scalar_yields means
        ((leftIh first leftMeans).pair (rightIh second rightMeans)) ?_
      rintro ⟨left', right'⟩ ⟨leftMeans', rightMeans'⟩
      obtain ⟨result, made, resultMeans⟩ := quotient_means
        (fun _ => (Scalar.div left right).text) leftMeans' rightMeans' divided byOne
      exact .lift made resultMeans
  | min operands ih =>
      rw [scalar]
      obtain ⟨_, proper, chosen⟩ := (min_means_iff _ _).1 means
      obtain ⟨values, mean⟩ := values_of_chosen proper chosen
      refine remember_scalar_yields means (scalars_yield ih mean) fun operands' mean' => ?_
      obtain ⟨result, made, resultMeans⟩ := minimum_means (fun _ => (Scalar.min operands).text)
        (each_means mean') (chosen_of_means mean mean' chosen)
      exact .lift made resultMeans
  | max operands ih =>
      rw [scalar]
      obtain ⟨_, proper, chosen⟩ := (max_means_iff _ _).1 means
      obtain ⟨values, mean⟩ := values_of_chosen proper chosen
      refine remember_scalar_yields means (scalars_yield ih mean) fun operands' mean' => ?_
      obtain ⟨result, made, resultMeans⟩ := maximum_means (fun _ => (Scalar.max operands).text)
        (each_means mean') (chosen_of_means mean mean' chosen)
      exact .lift made resultMeans
  | slice extent start stop extentIh startIh stopIh =>
      rw [scalar]
      obtain ⟨extentValue, startValue, stopValue, extentMeans, startMeans, stopMeans, length⟩ :=
        (slice_means_iff _ _ _ _).1 means
      refine remember_scalar_yields means
        (slice_parts_yield (extentIh extentValue extentMeans)
          (scalar_bound_yields startIh startMeans) (scalar_bound_yields stopIh stopMeans)) ?_
      rintro ⟨extent', interval⟩ ⟨extentMeans', startMeans', stopMeans'⟩
      obtain ⟨result, made, resultMeans⟩ := slice_means
        (fun _ => (Scalar.slice extent start stop).text) extentMeans' startMeans' stopMeans' length
      exact .lift made resultMeans

theorem interval_yields {given : Interval} {startValue stopValue : Option Decimal}
    (startMeans : BoundMeans bindings given.start startValue)
    (stopMeans : BoundMeans bindings given.stop stopValue) :
    Yields (Faithful bindings waveformRelation) (interval given) fun result =>
      BoundMeans bindings result.start startValue ∧ BoundMeans bindings result.stop stopValue := by
  refine (scalar_bound_yields (fun bound _ => scalar_yields bound) startMeans).bind
    fun start' startMeans' => ?_
  refine (scalar_bound_yields (fun bound _ => scalar_yields bound) stopMeans).bind
    fun stop' stopMeans' => ?_
  exact .pure ⟨startMeans', stopMeans'⟩

end Analog.Canonical
