import Analog.Proofs.CanonicalScalars
import Analog.Proofs.DirectForms

/-!
# The memory of scalars does not show

A result that is remembered for a scalar is found for all its equals, is kept for itself
too, and stays when later work fails. Whatever has been remembered, a scalar comes to an
equal of its direct form, or fails as it does without a memory. So a canonical form is its
own canonical form, and it has the value of the scalar unless a quotient by one that was
rounded lost its divisor.
-/

set_option autoImplicit false

namespace Analog.Canonical

open Scalar

/-- A result that may be remembered for a scalar: it is simple, and an equal of the direct form. -/
structure Trusted (given result : Scalar) : Prop where
  simple : result.Simple
  form : given.tidy = true → ∃ form, direct given = .ok form ∧ Alike result form

theorem Agree.trusted {reference outcome : Outcome Scalar} {result : Scalar}
    (agree : Agree reference outcome) (made : outcome = .ok result) :
    ∃ form, reference = .ok form ∧ Alike result form := by
  obtain ⟨form, formMade, alike⟩ := agree.result made
  exact ⟨form, formMade, alike.symm⟩

/-- A failure of a scalar: it is that of working without a memory. -/
def Fails (given : Scalar) (failure : Failure) : Prop :=
  given.tidy = true → direct given = .error failure

theorem trusted_of_same {given other known : Scalar} (equal : given.same other = true)
    (trusted : Trusted other known) : Trusted given known := by
  refine ⟨trusted.simple, fun tidied => ?_⟩
  have alike := alike_of_same tidied equal
  obtain ⟨form, made, forms⟩ := trusted.form alike.secondTidy
  obtain ⟨shared, sharedMade, sharedForms⟩ := direct_shared given other form alike made
  exact ⟨shared, sharedMade, forms.trans sharedForms.symm⟩

/-- A simple scalar is a result for itself, and so for its equals. -/
theorem trusted_itself {result other : Scalar} (simple : result.Simple)
    (equal : result.same other = true) : Trusted other result := by
  have alike := alike_of_same simple.tidied equal
  have itself : Trusted result result :=
    ⟨simple, fun tidied => ⟨result, direct_of_simple result simple, .refl tidied⟩⟩
  exact trusted_of_same alike.symm.equal itself

section Memory

variable {waveformRelation : Waveform → Waveform → Prop} {α : Type}

/-- A result is kept for a scalar that was not there, and for itself. -/
theorem keep_scalar_trusted {given result : Scalar} {memo : Memo}
    (absent : memo.scalars.find? given = none) (trusted : Trusted given result)
    (remembers : Remembers Trusted waveformRelation memo) :
    Remembers Trusted waveformRelation (keepScalar given result memo) := by
  refine ⟨?_, remembers.waveforms⟩
  refine (remembers.scalars.insert_new absent trusted).insert ?_ fun other _ _ equal => ?_
  · exact trusted_itself trusted.simple (same_refl result)
  · exact trusted_itself trusted.simple equal

theorem remember_scalar_ends {given : Scalar} {parts : Simplifying α} (rule : α → Outcome Scalar)
    {good : α → Prop} {fails : Failure → Prop}
    (partsEnd : Ends (Remembers Trusted waveformRelation) parts good fails)
    (partsFail : ∀ failure, fails failure → Fails given failure)
    (made : ∀ canonicalParts, good canonicalParts → ∀ result, rule canonicalParts = .ok result →
      Trusted given result)
    (failed : ∀ canonicalParts, good canonicalParts → ∀ failure,
      rule canonicalParts = .error failure → Fails given failure) :
    Ends (Remembers Trusted waveformRelation)
      (rememberScalar given parts fun canonicalParts => lift (rule canonicalParts))
      (Trusted given) (Fails given) := by
  have known : ∀ memo, Remembers Trusted waveformRelation memo → ∀ result,
      memo.scalars.find? given = some result → Trusted given result := by
    intro memo remembers result found
    obtain ⟨other, equal, trusted⟩ := remembers.scalars.find found
    exact trusted_of_same equal trusted
  intro memo remembers
  unfold rememberScalar
  rw [run_remembering]
  cases found : memo.scalars.find? given with
  | some result => exact ⟨remembers, by simpa using known memo remembers result found, by simp⟩
  | none =>
      obtain ⟨laterRemembers, isGood, forReason⟩ := partsEnd memo remembers
      dsimp only
      cases ran : parts.run memo with
      | mk outcome later =>
          rw [ran] at laterRemembers isGood forReason
          cases outcome with
          | error failure =>
              exact ⟨laterRemembers, by simp, by simpa using partsFail failure (forReason failure rfl)⟩
          | ok canonicalParts =>
              dsimp only
              cases laterFound : later.scalars.find? given with
              | some result =>
                  exact ⟨laterRemembers, by simpa using known later laterRemembers result laterFound,
                    by simp⟩
              | none =>
                  have partsGood := isGood canonicalParts rfl
                  have run_lift : (lift (rule canonicalParts)).run later =
                      (rule canonicalParts, later) := rfl
                  dsimp only
                  rw [run_lift]
                  cases ruled : rule canonicalParts with
                  | error failure =>
                      exact ⟨laterRemembers, by simp,
                        by simpa using failed canonicalParts partsGood failure ruled⟩
                  | ok result =>
                      have trusted := made canonicalParts partsGood result ruled
                      exact ⟨keep_scalar_trusted laterFound trusted laterRemembers,
                        by simpa using trusted, by simp⟩

def directPair (left right : Scalar) : Outcome (Scalar × Scalar) := do
  let left' ← direct left
  let right' ← direct right
  return (left', right')

theorem pair_ends {left right : Scalar}
    (leftEnds : Ends (Remembers Trusted waveformRelation) (scalar left) (Trusted left) (Fails left))
    (rightEnds :
      Ends (Remembers Trusted waveformRelation) (scalar right) (Trusted right) (Fails right)) :
    Ends (Remembers Trusted waveformRelation)
      (do
        let left' ← scalar left
        let right' ← scalar right
        return (left', right'))
      (fun pair => Trusted left pair.1 ∧ Trusted right pair.2)
      fun failure => left.tidy = true → right.tidy = true →
        directPair left right = .error failure := by
  refine leftEnds.bind (fun failure fails leftTidy _ => ?_) fun left' leftTrusted => ?_
  · rw [directPair, fails leftTidy]
    rfl
  · refine rightEnds.bind (fun failure fails leftTidy rightTidy => ?_) fun right' rightTrusted =>
      .pure ⟨leftTrusted, rightTrusted⟩
    obtain ⟨form, made, _⟩ := leftTrusted.form leftTidy
    rw [directPair, made, fails rightTidy]
    rfl

theorem forms_of_trusted {operands results : List Scalar}
    (tidied : ∀ operand ∈ operands, operand.tidy = true)
    (trusted : List.Forall₂ Trusted operands results) :
    ∃ forms, directAll operands = .ok forms ∧ List.Forall₂ Alike results forms := by
  induction trusted with
  | nil => exact ⟨[], rfl, .nil⟩
  | @cons operand result rest results one others ih =>
      obtain ⟨form, made, alike⟩ := one.form (tidied operand (by simp))
      obtain ⟨forms, restMade, related⟩ := ih fun other member => tidied other (by simp [member])
      refine ⟨form :: forms, ?_, .cons alike related⟩
      rw [directAll, made, restMade]
      rfl

theorem scalars_end {operands : List Scalar}
    (each : ∀ operand ∈ operands,
      Ends (Remembers Trusted waveformRelation) (scalar operand) (Trusted operand) (Fails operand)) :
    Ends (Remembers Trusted waveformRelation) (scalars operands) (List.Forall₂ Trusted operands)
      fun failure => (∀ operand ∈ operands, operand.tidy = true) →
        directAll operands = .error failure := by
  induction operands with
  | nil => exact .pure .nil
  | cons operand rest ih =>
      rw [scalars]
      refine (each operand (by simp)).bind (fun failure fails tidied => ?_) fun operand' trusted => ?_
      · rw [directAll, fails (tidied operand (by simp))]
        rfl
      · refine (ih fun other member => each other (by simp [member])).bind
          (fun failure fails tidied => ?_) fun rest' restTrusted => .pure (.cons trusted restTrusted)
        obtain ⟨form, made, _⟩ := trusted.form (tidied operand (by simp))
        rw [directAll, made, fails fun other member => tidied other (by simp [member])]
        rfl

theorem scalar_bound_ends {bound : Option Scalar}
    (each : ∀ given ∈ bound,
      Ends (Remembers Trusted waveformRelation) (scalar given) (Trusted given) (Fails given)) :
    Ends (Remembers Trusted waveformRelation) (scalarBound bound) (Option.Rel Trusted bound)
      fun failure => tidyBound bound = true → directBound bound = .error failure := by
  cases bound with
  | none => exact .pure .none
  | some given =>
      rw [scalarBound]
      refine (each given rfl).bind (fun failure fails tidied => ?_) fun bound' trusted =>
        .pure (.some trusted)
      rw [directBound, fails tidied]
      rfl

theorem leaf_ends {leaf : Scalar} (simple : leaf.Simple) (itself : direct leaf = .ok leaf) :
    Ends (Remembers Trusted waveformRelation) (rememberScalar leaf (pure ()) fun _ => pure leaf)
      (Trusted leaf) (Fails leaf) := by
  have nothing : Ends (Remembers Trusted waveformRelation) (pure () : Simplifying Unit)
      (fun _ => True) fun _ => False := .pure trivial
  refine remember_scalar_ends (fun _ => .ok leaf) nothing (fun _ impossible => impossible.elim)
    (fun _ _ result made => ?_) fun _ _ failure impossible => by cases impossible
  cases made
  exact ⟨simple, fun tidied => ⟨leaf, itself, .refl tidied⟩⟩

theorem trusted_negative {operand operand' : Scalar} (trusted : Trusted operand operand') :
    Trusted (.negative operand) (negative operand') := by
  refine ⟨negative_simple trusted.simple, fun tidied => ?_⟩
  obtain ⟨form, made, alike⟩ := trusted.form tidied
  exact ⟨negative form, by rw [direct, made]; rfl, negative_alike alike⟩

/-- A node of two parts, by a rule that keeps scalars simple and does not tell equals apart. -/
theorem pair_node_ends {given left right : Scalar} (rule : Scalar → Scalar → Outcome Scalar)
    (tidied : given.tidy = true → left.tidy = true ∧ right.tidy = true)
    (reads : direct given = directPair left right >>= fun pair => rule pair.1 pair.2)
    (simple : ∀ {left' right' result}, left'.Simple → right'.Simple →
      rule left' right' = .ok result → result.Simple)
    (agree : ∀ {left' right' leftForm rightForm}, Alike left' leftForm → Alike right' rightForm →
      Agree (rule left' right') (rule leftForm rightForm))
    (leftEnds : Ends (Remembers Trusted waveformRelation) (scalar left) (Trusted left) (Fails left))
    (rightEnds :
      Ends (Remembers Trusted waveformRelation) (scalar right) (Trusted right) (Fails right)) :
    Ends (Remembers Trusted waveformRelation)
      (rememberScalar given
        (do
          let left' ← scalar left
          let right' ← scalar right
          return (left', right'))
        fun pair => lift (rule pair.1 pair.2))
      (Trusted given) (Fails given) := by
  have forms : ∀ pair : Scalar × Scalar, Trusted left pair.1 ∧ Trusted right pair.2 →
      given.tidy = true → Agree (direct given) (rule pair.1 pair.2) := by
    rintro ⟨left', right'⟩ ⟨leftTrusted, rightTrusted⟩ givenTidy
    obtain ⟨leftForm, leftMade, leftAlike⟩ := leftTrusted.form (tidied givenTidy).1
    obtain ⟨rightForm, rightMade, rightAlike⟩ := rightTrusted.form (tidied givenTidy).2
    rw [reads, directPair, leftMade, rightMade]
    exact agree leftAlike.symm rightAlike.symm
  refine remember_scalar_ends _ (pair_ends leftEnds rightEnds) (fun failure fails givenTidy => ?_)
    (fun pair trusted result made => ?_) fun pair trusted failure failed givenTidy => ?_
  · rw [reads, fails (tidied givenTidy).1 (tidied givenTidy).2]
    rfl
  · exact ⟨simple trusted.1.simple trusted.2.simple made,
      fun givenTidy => (forms pair trusted givenTidy).trusted made⟩
  · exact (forms pair trusted givenTidy).failure failed

/-- A node of listed operands, by a rule that keeps scalars simple and does not tell equals
apart. -/
theorem list_node_ends {given : Scalar} {operands : List Scalar}
    (rule : List Scalar → Outcome Scalar)
    (tidied : given.tidy = true → ∀ operand ∈ operands, operand.tidy = true)
    (reads : direct given = directAll operands >>= rule)
    (simple : ∀ {operands' result}, (∀ operand' ∈ operands', operand'.Simple) →
      rule operands' = .ok result → result.Simple)
    (agree : ∀ {operands' forms}, Matched operands' forms → Agree (rule operands') (rule forms))
    (each : ∀ operand ∈ operands,
      Ends (Remembers Trusted waveformRelation) (scalar operand) (Trusted operand) (Fails operand)) :
    Ends (Remembers Trusted waveformRelation)
      (rememberScalar given (scalars operands) fun operands' => lift (rule operands'))
      (Trusted given) (Fails given) := by
  have forms : ∀ operands', List.Forall₂ Trusted operands operands' → given.tidy = true →
      Agree (direct given) (rule operands') := by
    intro operands' trusted givenTidy
    obtain ⟨forms, made, matched⟩ := forms_of_trusted (tidied givenTidy) trusted
    rw [reads, made]
    exact agree (matched_of_related matched).symm
  refine remember_scalar_ends _ (scalars_end each) (fun failure fails givenTidy => ?_)
    (fun operands' trusted result made => ?_) fun operands' trusted failure failed givenTidy => ?_
  · rw [reads, fails (tidied givenTidy)]
    rfl
  · refine ⟨simple (fun operand' member => ?_) made,
      fun givenTidy => (forms operands' trusted givenTidy).trusted made⟩
    obtain ⟨operand, _, one⟩ := Outcome.source_of_mem trusted member
    exact one.simple
  · exact (forms operands' trusted givenTidy).failure failed

theorem bound_form_of_trusted {bound result : Option Scalar} (tidied : tidyBound bound = true)
    (trusted : Option.Rel Trusted bound result) :
    ∃ form, directBound bound = .ok form ∧ BoundAlike form result := by
  cases trusted with
  | none => exact ⟨none, rfl, .none⟩
  | some trusted =>
      obtain ⟨form, made, alike⟩ := trusted.form tidied
      refine ⟨some form, ?_, .some alike.symm⟩
      rw [directBound, made]
      rfl

theorem bound_simple_of_trusted {bound result : Option Scalar}
    (trusted : Option.Rel Trusted bound result) : ∀ found ∈ result, found.Simple := by
  intro found member
  cases trusted with
  | none => cases member
  | some trusted =>
      cases member
      exact trusted.simple

/-- Extent and bounds that may be remembered for those of a slice. -/
def TrustedParts (extent : Scalar) (start stop : Option Scalar) (cut : Scalar × Interval) : Prop :=
  Trusted extent cut.1 ∧ Option.Rel Trusted start cut.2.start ∧ Option.Rel Trusted stop cut.2.stop

theorem slice_agree_of_trusted {extent : Scalar} {start stop : Option Scalar}
    {cut : Scalar × Interval} (trusted : TrustedParts extent start stop cut)
    (tidied : (Scalar.slice extent start stop).tidy = true) :
    Agree (direct (.slice extent start stop))
      (slice (fun _ => (Scalar.slice extent start stop).text) cut.1 cut.2) := by
  obtain ⟨extentTrusted, startTrusted, stopTrusted⟩ := trusted
  obtain ⟨extentTidy, startTidy, stopTidy⟩ := (slice_tidy_iff _ _ _).1 tidied
  obtain ⟨extentForm, extentMade, extentAlike⟩ := extentTrusted.form extentTidy
  obtain ⟨startForm, startMade, startAlike⟩ := bound_form_of_trusted startTidy startTrusted
  obtain ⟨stopForm, stopMade, stopAlike⟩ := bound_form_of_trusted stopTidy stopTrusted
  rw [direct, extentMade, startMade, stopMade, Outcome.ok_bind, Outcome.ok_bind, Outcome.ok_bind]
  exact slice_agree _ extentAlike.symm startAlike stopAlike

theorem slice_parts_end {extent : Scalar} {start stop : Option Scalar}
    (extentEnds :
      Ends (Remembers Trusted waveformRelation) (scalar extent) (Trusted extent) (Fails extent))
    (startEnds : ∀ bound ∈ start,
      Ends (Remembers Trusted waveformRelation) (scalar bound) (Trusted bound) (Fails bound))
    (stopEnds : ∀ bound ∈ stop,
      Ends (Remembers Trusted waveformRelation) (scalar bound) (Trusted bound) (Fails bound)) :
    Ends (Remembers Trusted waveformRelation)
      (do
        let extent' ← scalar extent
        let start' ← scalarBound start
        let stop' ← scalarBound stop
        return (extent', Interval.mk start' stop'))
      (TrustedParts extent start stop) (Fails (.slice extent start stop)) := by
  refine extentEnds.bind (fun failure fails tidied => ?_) fun extent' extentTrusted => ?_
  · rw [direct, fails ((slice_tidy_iff _ _ _).1 tidied).1]
    rfl
  refine (scalar_bound_ends startEnds).bind (fun failure fails tidied => ?_)
    fun start' startTrusted => ?_
  · obtain ⟨extentTidy, startTidy, _⟩ := (slice_tidy_iff _ _ _).1 tidied
    obtain ⟨extentForm, extentMade, _⟩ := extentTrusted.form extentTidy
    rw [direct, extentMade, fails startTidy]
    rfl
  refine (scalar_bound_ends stopEnds).bind (fun failure fails tidied => ?_)
    fun stop' stopTrusted => .pure ⟨extentTrusted, startTrusted, stopTrusted⟩
  obtain ⟨extentTidy, startTidy, stopTidy⟩ := (slice_tidy_iff _ _ _).1 tidied
  obtain ⟨extentForm, extentMade, _⟩ := extentTrusted.form extentTidy
  obtain ⟨startForm, startMade, _⟩ := bound_form_of_trusted startTidy startTrusted
  rw [direct, extentMade, startMade, fails stopTidy]
  rfl

/-- Whatever is remembered, a scalar comes to an equal of its direct form, and fails if there is
none. -/
theorem scalar_ends (given : Scalar) :
    Ends (Remembers Trusted waveformRelation) (scalar given) (Trusted given) (Fails given) := by
  induction given using Scalar.parts_induction with
  | literal value =>
      rw [scalar]
      exact leaf_ends (literal_simple value) rfl
  | named name =>
      rw [scalar]
      exact leaf_ends (variable_simple name) rfl
  | assigned name value =>
      rw [scalar]
      exact leaf_ends (assigned_simple name value) rfl
  | negative operand ih =>
      rw [scalar]
      exact remember_scalar_ends (fun operand' => .ok (negative operand')) ih
        (fun failure fails tidied => by rw [direct, fails tidied]; rfl)
        (fun operand' trusted result made => by cases made; exact trusted_negative trusted)
        fun operand' _ failure impossible => by cases impossible
  | add left right leftIh rightIh =>
      rw [scalar]
      exact pair_node_ends (fun left' right' => .ok (sum left' right'))
        (fun tidied => by simpa [tidy] using tidied)
        (by simp only [direct, directPair, bind_assoc, pure_bind]; rfl)
        (fun leftSimple rightSimple made => by cases made; exact sum_simple leftSimple rightSimple)
        (fun lefts rights => .ok (sum_alike lefts rights)) leftIh rightIh
  | mul left right leftIh rightIh =>
      rw [scalar]
      exact pair_node_ends (fun left' right' => .ok (product left' right'))
        (fun tidied => by simpa [tidy] using tidied)
        (by simp only [direct, directPair, bind_assoc, pure_bind]; rfl)
        (fun leftSimple rightSimple made => by
          cases made; exact product_simple leftSimple rightSimple)
        (fun lefts rights => .ok (product_alike lefts rights)) leftIh rightIh
  | div left right leftIh rightIh =>
      rw [scalar]
      exact pair_node_ends _ (fun tidied => by simpa [tidy] using tidied)
        (by simp only [direct, directPair, bind_assoc, pure_bind])
        quotient_simple (quotient_agree _) leftIh rightIh
  | min operands ih =>
      rw [scalar]
      exact list_node_ends _ (fun tidied => ((min_tidy_iff _).1 tidied).2) rfl minimum_simple
        (minimum_agree _) ih
  | max operands ih =>
      rw [scalar]
      exact list_node_ends _ (fun tidied => ((max_tidy_iff _).1 tidied).2) rfl maximum_simple
        (maximum_agree _) ih
  | slice extent start stop extentIh startIh stopIh =>
      rw [scalar]
      refine remember_scalar_ends _ (slice_parts_end extentIh startIh stopIh) (fun _ fails => fails)
        (fun cut trusted result made => ?_) fun cut trusted failure failed tidied => ?_
      · exact ⟨slice_simple trusted.1.simple (bound_simple_of_trusted trusted.2.1)
          (bound_simple_of_trusted trusted.2.2) made,
          fun tidied => (slice_agree_of_trusted trusted tidied).trusted made⟩
      · exact (slice_agree_of_trusted trusted tidied).failure failed

end Memory

theorem afresh_trusted {given result : Scalar} (made : afresh (scalar given) = .ok result) :
    Trusted given result := by
  have ends : Ends (Remembers Trusted fun _ _ => True) (scalar given) (Trusted given) (Fails given) :=
    scalar_ends given
  exact (ends {} remembers_nothing).2.1 result made

theorem afresh_fails {given : Scalar} {failure : Failure}
    (failed : afresh (scalar given) = .error failure) : Fails given failure := by
  have ends : Ends (Remembers Trusted fun _ _ => True) (scalar given) (Trusted given) (Fails given) :=
    scalar_ends given
  exact (ends {} remembers_nothing).2.2 failure failed

/-- Working without a memory succeeds and fails as working with an empty one does. -/
theorem afresh_iff_direct {given : Scalar} (tidied : given.tidy = true) :
    (∀ form, direct given = .ok form →
      ∃ result, afresh (scalar given) = .ok result ∧ Alike result form) ∧
      ∀ failure, direct given = .error failure → afresh (scalar given) = .error failure := by
  cases ran : afresh (scalar given) with
  | ok result =>
      obtain ⟨form, made, alike⟩ := (afresh_trusted ran).form tidied
      rw [made]
      exact ⟨fun other same => ⟨result, rfl, Except.ok.inj same ▸ alike⟩,
        fun _ impossible => by cases impossible⟩
  | error failure =>
      rw [afresh_fails ran tidied]
      exact ⟨by simp, fun _ same => same⟩

/-- The canonical form of a canonical form is itself. -/
theorem canonical_scalar_idempotent (given result : Scalar)
    (made : afresh (scalar given) = .ok result) :
    result.Simple ∧ ∃ again, afresh (scalar result) = .ok again ∧ again.same result = true := by
  have simple := (afresh_trusted made).simple
  obtain ⟨again, againMade, alike⟩ :=
    (afresh_iff_direct simple.tidied).1 result (direct_of_simple result simple)
  exact ⟨simple, again, againMade, alike.equal⟩

/-- A minimum within a minimum, with a sum of negations and numbers to be folded. -/
def nestedMinimum : Scalar :=
  .min [.min [.literal 3, .add (.negative (.variable "x")) (.negative (.variable "y"))], .literal 2]

theorem nested_minimum_direct : direct nestedMinimum =
    .ok (.min [.negative (.add (.variable "x") (.variable "y")), .literal 2]) := by
  rfl

theorem canonical_nested_minimum_idempotent :
    ∃ result, afresh (scalar nestedMinimum) = .ok result ∧ result.Simple ∧
      ∃ again, afresh (scalar result) = .ok again ∧ again.same result = true := by
  have tidied : nestedMinimum.tidy = true := rfl
  obtain ⟨result, made, _⟩ := (afresh_iff_direct tidied).1 _ nested_minimum_direct
  exact ⟨result, made, canonical_scalar_idempotent nestedMinimum result made⟩

/-- What is remembered after some scalars have been worked on one after the other, each with
success or not. -/
def remembered (history : List Scalar) : Memo :=
  history.foldl (fun memo given => ((scalar given).run memo).2) {}

theorem remembered_trusted (history : List Scalar) :
    Remembers Trusted (fun _ _ => True) (remembered history) := by
  have folded : ∀ memo, Remembers Trusted (fun _ _ => True) memo → Remembers Trusted (fun _ _ => True)
      (history.foldl (fun memo given => ((scalar given).run memo).2) memo) := by
    induction history with
    | nil => exact fun _ remembers => remembers
    | cons given rest ih =>
        exact fun memo remembers => ih _ (scalar_ends given memo remembers).1
  exact folded {} remembers_nothing

/-- Whatever has been worked on before, a scalar fails as it does afresh, and otherwise comes to
an equal of what it comes to afresh. -/
theorem memory_transparent (history : List Scalar) (given : Scalar) (tidied : given.tidy = true) :
    (∀ failure, ((scalar given).run (remembered history)).1 = .error failure ↔
      afresh (scalar given) = .error failure) ∧
      ∀ result, ((scalar given).run (remembered history)).1 = .ok result →
        ∃ fresh, afresh (scalar given) = .ok fresh ∧ result.same fresh = true := by
  obtain ⟨_, trusted, fails⟩ := scalar_ends given _ (remembered_trusted history)
  obtain ⟨freshForm, freshFails⟩ := afresh_iff_direct tidied
  constructor
  · intro failure
    constructor
    · exact fun failed => freshFails failure (fails failure failed tidied)
    · intro failed
      have directFails := afresh_fails failed tidied
      cases ran : ((scalar given).run (remembered history)).1 with
      | ok result =>
          obtain ⟨form, made, _⟩ := (trusted result ran).form tidied
          rw [directFails] at made
          cases made
      | error other =>
          rw [fails other ran tidied] at directFails
          rw [directFails]
  · intro result ran
    obtain ⟨form, made, alike⟩ := (trusted result ran).form tidied
    obtain ⟨fresh, freshMade, freshAlike⟩ := freshForm form made
    exact ⟨fresh, freshMade, (alike.trans freshAlike.symm).equal⟩

/-- A division by zero that failed, and a minimum whose operands stand in another order. -/
def failedAndReordered : List Scalar :=
  [.div (.variable "x") (.literal 0), .min [.variable "x", .variable "y"]]

theorem memory_transparent_reordered :
    (Scalar.min [.variable "y", .variable "x"]).tidy = true ∧
      (∀ failure, ((scalar (.min [.variable "y", .variable "x"])).run
          (remembered failedAndReordered)).1 = .error failure ↔
        afresh (scalar (.min [.variable "y", .variable "x"])) = .error failure) ∧
      ∀ result, ((scalar (.min [.variable "y", .variable "x"])).run
          (remembered failedAndReordered)).1 = .ok result →
        ∃ fresh, afresh (scalar (.min [.variable "y", .variable "x"])) = .ok fresh ∧
          result.same fresh = true :=
  ⟨rfl, memory_transparent failedAndReordered (.min [.variable "y", .variable "x"]) rfl⟩

end Analog.Canonical
