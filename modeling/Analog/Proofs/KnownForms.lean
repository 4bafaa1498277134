import Analog.Proofs.CanonicalCircuits
import Analog.Proofs.MergedDrives

/-!
# Known canonical forms

A consistent table of waveforms with their canonical forms serves as an invariant of the
memory: work that agrees with the table on every node ends with the form that is listed. In
this way the canonical form of a given program is found step by step, whatever order the work
takes and whatever it has met before. Numbers and variables are canonical by themselves.
-/

set_option autoImplicit false

namespace Analog.Canonical

abbrev Forms := List (Waveform × Waveform)

/-- Equal waveforms have one form, which is its own form. -/
structure Forms.Consistent (forms : Forms) : Prop where
  once : ∀ entry ∈ forms, ∀ other ∈ forms, entry.1.same other.1 = true → other.2 = entry.2
  closed : ∀ entry ∈ forms, (entry.2, entry.2) ∈ forms

def Forms.Distinct (forms : Forms) : Prop :=
  forms.Pairwise fun entry other =>
    entry.1.same other.1 = false ∧ other.1.same entry.1 = false

instance (forms : Forms) : Decidable forms.Distinct :=
  inferInstanceAs (Decidable (forms.Pairwise fun entry other =>
    entry.1.same other.1 = false ∧ other.1.same entry.1 = false))

theorem Forms.Distinct.consistent {forms : Forms} (distinct : forms.Distinct)
    (closed : ∀ entry ∈ forms, (entry.2, entry.2) ∈ forms) : forms.Consistent := by
  have forth : forms.Pairwise fun entry other =>
      entry.1.same other.1 = true → other.2 = entry.2 :=
    distinct.imp fun apart equal => by simp [apart.1] at equal
  have back : forms.Pairwise fun entry other =>
      other.1.same entry.1 = true → entry.2 = other.2 :=
    distinct.imp fun apart equal => by simp [apart.2] at equal
  refine ⟨fun entry member other otherMember => ?_, closed⟩
  exact forth.forall_of_forall_of_flip (fun _ _ _ => rfl) back member otherMember

/-- The canonical form of a scalar that needs no bindings is a number, that of a variable the
variable itself. -/
inductive ScalarForm : Scalar → Scalar → Prop where
  | number {given : Scalar} {value : Decimal} (known : Scalar.Known .empty given value) :
      ScalarForm given (.literal value)
  | named (name : String) : ScalarForm (.variable name) (.variable name)

/-- The memory of work on numbers and variables that agrees with a table. -/
abbrev Agrees (forms : Forms) : Memo → Prop :=
  Remembers ScalarForm fun given result => (given, result) ∈ forms

variable {forms : Forms} {α β : Type}

def Gives (forms : Forms) (work : Simplifying α) (result : α) : Prop :=
  Yields (Agrees forms) work (· = result)

theorem Gives.pure {result : α} : Gives forms (Pure.pure result) result :=
  Yields.pure rfl

theorem Gives.bind {work : Simplifying α} {result : α} {next : α → Simplifying β} {last : β}
    (gives : Gives forms work result) (nextGives : Gives forms (next result) last) :
    Gives forms (work >>= next) last := by
  refine Yields.bind gives ?_
  rintro _ rfl
  exact nextGives

theorem Gives.mapM {items : List α} {results : List β} {work : α → Simplifying β}
    (each : List.Forall₂ (fun item result => Gives forms (work item) result) items results) :
    Gives forms (items.mapM work) results := by
  induction each with
  | nil =>
      rw [List.mapM_nil]
      exact .pure
  | cons first _ ih =>
      rw [List.mapM_cons]
      exact first.bind (ih.bind .pure)

theorem Gives.afresh {work : Simplifying α} {result : α} (gives : Gives forms work result) :
    Canonical.afresh work = .ok result := by
  obtain ⟨_, succeeds, rfl⟩ := Yields.afresh gives remembers_nothing
  exact succeeds

theorem ScalarForm.unique {first second result other : Scalar} (form : ScalarForm first result)
    (otherForm : ScalarForm second other) (equal : first.same second = true) : other = result := by
  cases form with
  | @number _ value known =>
      have evaluates := Scalar.eval_of_same first second value known.tidied equal known.evaluates
      cases otherForm with
      | @number _ found foundKnown =>
          rw [Except.ok.inj (foundKnown.evaluates.symm.trans evaluates)]
      | named name => cases evaluates
  | named name =>
      rw [Scalar.variable_same_iff] at equal
      subst equal
      cases otherForm with
      | number known => cases known.evaluates
      | named _ => rfl

theorem ScalarForm.itself {given result : Scalar} (form : ScalarForm given result) :
    ScalarForm result result := by
  cases form with
  | number known => exact .number ⟨rfl, rfl⟩
  | named name => exact .named name

theorem remember_scalar_form {given result : Scalar} {parts : Simplifying α}
    {simplify : α → Simplifying Scalar} {simple : α} (form : ScalarForm given result)
    (partsGive : Gives forms parts simple) (simplifyGives : Gives forms (simplify simple) result) :
    Gives forms (rememberScalar given parts simplify) result := by
  apply Yields.remembering _ _ partsGive
  · rintro _ rfl
    exact simplifyGives
  · intro memo remembers found isFound
    obtain ⟨other, equal, otherForm⟩ := remembers.scalars.find isFound
    exact form.unique otherForm equal
  · rintro _ rfl memo remembers
    refine ⟨?_, remembers.waveforms⟩
    refine (remembers.scalars.insert form fun other old otherForm equal => ?_).insert form.itself
      fun other old otherForm equal => ?_
    · rw [← form.unique otherForm equal]
      exact otherForm
    · rw [← form.itself.unique otherForm equal]
      exact otherForm

theorem variable_form (name : String) :
    Gives forms (scalar (.variable name)) (.variable name) := by
  rw [scalar]
  exact remember_scalar_form (.named name) .pure .pure

theorem literal_form (number : Decimal) :
    Gives forms (scalar (.literal number)) (.literal number) := by
  rw [scalar]
  exact remember_scalar_form (.number ⟨rfl, rfl⟩) .pure .pure

theorem remember_form {given result : Waveform} {parts : Simplifying α}
    {simplify : α → Simplifying Waveform} {simple : α} (consistent : forms.Consistent)
    (listed : (given, result) ∈ forms) (partsGive : Gives forms parts simple)
    (simplifyGives : Gives forms (simplify simple) result) :
    Gives forms (rememberWaveform given parts simplify) result := by
  apply Yields.remembering _ _ partsGive
  · rintro _ rfl
    exact simplifyGives
  · intro memo remembers found isFound
    obtain ⟨other, equal, otherListed⟩ := remembers.waveforms.find isFound
    exact consistent.once (given, result) listed (other, found) otherListed equal
  · rintro made rfl memo remembers
    have itself : (made, made) ∈ forms := consistent.closed _ listed
    refine ⟨remembers.scalars, ?_⟩
    refine (remembers.waveforms.insert listed fun other old otherListed equal => ?_).insert itself
      fun other old otherListed equal => ?_
    · have same : old = made := consistent.once _ listed _ otherListed equal
      exact same ▸ otherListed
    · have same : old = made := consistent.once _ itself _ otherListed equal
      exact same ▸ otherListed

theorem constant_form {value length : Decimal} (consistent : forms.Consistent)
    (listed : (.constant (.literal value) (.literal length),
      .constant (.literal value) (.literal length)) ∈ forms) :
    Gives forms (waveform (.constant (.literal value) (.literal length)))
      (.constant (.literal value) (.literal length)) := by
  rw [waveform]
  apply remember_form consistent listed .pure
  exact (literal_form value).bind ((literal_form length).bind .pure)

theorem ramp_form {start stop length : Decimal} (consistent : forms.Consistent)
    (listed : (.ramp (.literal start) (.literal stop) (.literal length),
      .ramp (.literal start) (.literal stop) (.literal length)) ∈ forms)
    (different : start ≠ stop) :
    Gives forms (waveform (.ramp (.literal start) (.literal stop) (.literal length)))
      (.ramp (.literal start) (.literal stop) (.literal length)) := by
  rw [waveform]
  apply remember_form consistent listed .pure
  refine (literal_form start).bind ((literal_form stop).bind ((literal_form length).bind ?_))
  have stays : ramp (.literal start) (.literal stop) (.literal length) =
      .ramp (.literal start) (.literal stop) (.literal length) := by
    unfold ramp
    rw [if_neg]
    rw [Scalar.literal_same_iff, Scalar.literal.injEq]
    exact different
  rw [stays]
  exact .pure

theorem scale_form {factor : Scalar} {given simple result : Waveform}
    (consistent : forms.Consistent) (listed : (.scale factor given, result) ∈ forms)
    (innerGives : Gives forms (waveform given) simple)
    (factorGives : Gives forms (scalar factor) factor)
    (scaleGives : Gives forms (scale factor simple) result) :
    Gives forms (waveform (.scale factor given)) result := by
  rw [waveform]
  exact remember_form consistent listed innerGives (factorGives.bind scaleGives)

theorem add_form {left right simpleLeft simpleRight result : Waveform}
    (consistent : forms.Consistent) (listed : (.add left right, result) ∈ forms)
    (leftGives : Gives forms (waveform left) simpleLeft)
    (rightGives : Gives forms (waveform right) simpleRight)
    (addGives : Gives forms (add simpleLeft simpleRight) result) :
    Gives forms (waveform (.add left right)) result := by
  rw [waveform]
  exact remember_form consistent listed (leftGives.bind (rightGives.bind .pure)) addGives

theorem append_form {parts simpleParts : List Waveform} {result : Waveform}
    (consistent : forms.Consistent) (listed : (.append parts, result) ∈ forms)
    (each : List.Forall₂ (fun part simple => Gives forms (waveform part) simple) parts simpleParts)
    (joinGives : Gives forms (concatenate simpleParts) result) :
    Gives forms (waveform (.append parts)) result := by
  rw [waveform, waveforms_eq_mapM]
  exact remember_form consistent listed (Gives.mapM each) joinGives

/-- A part that lasts for a number other than zero is joined to those before it. -/
theorem join_next_form {part : Waveform} {reversed rest result : List Waveform} {length : Decimal}
    (lasts : part.symbolicDuration = .literal length) (notZero : length ≠ 0)
    (joinGives : Gives forms (joinParts (joinPart reversed part) rest) result) :
    Gives forms (joinParts reversed (part :: rest)) result := by
  unfold joinParts duration
  rw [lasts]
  refine (literal_form length).bind ?_
  rw [if_neg (by simpa [Scalar.isZero, Scalar.value?] using notZero)]
  exact joinGives

theorem join_empty_form {part : Waveform} {reversed rest result : List Waveform}
    (lasts : part.symbolicDuration = Scalar.zero)
    (joinGives : Gives forms (joinParts reversed rest) result) :
    Gives forms (joinParts reversed (part :: rest)) result := by
  unfold joinParts duration
  rw [lasts]
  exact (literal_form 0).bind joinGives

theorem single_drive_form {target simpleTarget : Modulation} {given simple : Waveform}
    (targetGives : Gives forms (modulation target) simpleTarget)
    (gives : Gives forms (waveform given) simple) :
    Gives forms (field ⟨[⟨target, given⟩]⟩) ⟨[⟨simpleTarget, simple⟩]⟩ := by
  have driveGives : Gives forms (drive ⟨target, given⟩) ⟨simpleTarget, simple⟩ :=
    targetGives.bind (gives.bind .pure)
  have each := Gives.mapM (List.Forall₂.cons driveGives List.Forall₂.nil)
  exact each.bind (Gives.bind .pure .pure)

abbrev GivesAny (forms : Forms) (work : α → Simplifying β) : Option α → Option β → Prop :=
  Option.Rel fun value result => Gives forms (work value) result

theorem entries_form {κ : Type} (names : List κ) {given : κ → Option α} {simple : κ → Option β}
    {work : α → Simplifying β} (each : ∀ name, GivesAny forms work (given name) (simple name)) :
    Gives forms ((names.filterMap fun name => (given name).map (name, ·)).mapM fun entry => do
        let value ← work entry.2
        return (entry.1, value))
      (names.filterMap fun name => (simple name).map (name, ·)) := by
  apply Gives.mapM
  induction names with
  | nil => exact List.Forall₂.nil
  | cons name rest ih =>
      have named := each name
      cases givenName : given name with
      | none =>
          cases simpleName : simple name with
          | none => simpa [givenName, simpleName] using ih
          | some result => rw [givenName, simpleName] at named; cases named
      | some value =>
          cases simpleName : simple name with
          | none => rw [givenName, simpleName] at named; cases named
          | some result =>
              rw [givenName, simpleName] at named
              cases named with
              | some gives =>
                  simp only [List.filterMap_cons, givenName, simpleName, Option.map_some]
                  exact List.Forall₂.cons (gives.bind .pure) ih

theorem plain_pulse_form {fields simple : PerField Field}
    (each : ∀ name, GivesAny forms field (fields.get? name) (simple.get? name)) :
    Gives forms (pulse (.plain fields)) (.plain simple) := by
  rw [pulse]
  have same : PerField.ofEntries simple.entries = simple := by
    obtain ⟨detuning, amplitude, phase⟩ := simple
    cases detuning <;> cases amplitude <;> cases phase <;> rfl
  refine Gives.bind ((entries_form FieldName.all each).bind .pure) ?_
  change Gives forms (Pure.pure (Pulse.plain (PerField.ofEntries simple.entries))) _
  rw [same]
  exact .pure

theorem plain_sequence_form {pulses simple : PerCoupling Pulse}
    (each : ∀ coupling, GivesAny forms pulse (pulses.get? coupling) (simple.get? coupling)) :
    Gives forms (sequence (.plain pulses)) (.plain simple) := by
  rw [sequence]
  have same : PerCoupling.ofEntries simple.entries = simple := by
    obtain ⟨rydberg, hyperfine⟩ := simple
    cases rydberg <;> cases hyperfine <;> rfl
  refine Gives.bind ((entries_form Coupling.all each).bind .pure) ?_
  change Gives forms (Pure.pure (Sequence.plain (PerCoupling.ofEntries simple.entries))) _
  rw [same]
  exact .pure

theorem append_sequence_form {parts simple : List Sequence} {result : Sequence}
    (each : List.Forall₂ (fun part result => Gives forms (sequence part) result) parts simple)
    (joinGives : Gives forms (concatenateSequences simple) result) :
    Gives forms (sequence (.append parts)) result := by
  rw [sequence, sequences_eq_mapM]
  exact (Gives.mapM each).bind joinGives

/-- Which parts are retained depends on the canonical forms of their durations and on their
channels only. -/
theorem retain_marked_form {length : α → Scalar} {channels : α → List Channel} {parts : List α}
    {empty : α → Bool}
    (marks : ∀ part ∈ parts, ∃ simple, Gives forms (scalar (length part)) simple ∧
      simple.isZero = empty part) :
    Gives forms (retain length channels parts)
      (let marked := parts.map fun part => (part, empty part, channels part)
      dropEmpty (coveredChannels (marked.map Prod.snd)) marked) := by
  have each : List.Forall₂ (fun part mark => Gives forms
      (do
        let empty ← isEmpty (length part)
        return (part, empty, channels part)) mark)
      parts (parts.map fun part => (part, empty part, channels part)) := by
    refine List.forall₂_map_right_iff.2 (List.forall₂_same.2 fun part member => ?_)
    obtain ⟨simple, gives, isEmpty⟩ := marks part member
    refine Gives.bind (gives.bind ?_) .pure
    rw [isEmpty]
    exact .pure
  exact (Gives.mapM each).bind .pure

theorem retain_form {length : α → Scalar} {channels : α → List Channel} {parts : List α}
    {marked : List (α × Bool × List Channel)}
    (literal : ∀ part ∈ parts, ∃ value, length part = .literal value)
    (marks : parts.map (fun part => (part, (length part).isZero, channels part)) = marked) :
    Gives forms (retain length channels parts)
      (dropEmpty (coveredChannels (marked.map Prod.snd)) marked) := by
  subst marks
  refine retain_marked_form fun part member => ?_
  obtain ⟨value, lasts⟩ := literal part member
  rw [lasts]
  exact ⟨_, literal_form value, rfl⟩

end Analog.Canonical
