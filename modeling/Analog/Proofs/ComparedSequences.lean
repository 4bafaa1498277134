import Analog.Proofs.ComparedFields

/-!
# Compared pulses, sequences and channels

Tables are compared by looking up the values of the one in the other, which has as many: so both
have values under the same keys. Pulses and sequences are built alike from tables, and what holds
of tables carries over to them. Nodes that constructors make are compared by equivalences that are
consistent with fingerprints, and the drives of a field may be given in any order.
-/

set_option autoImplicit false

namespace Analog

variable (identities : Identities)

section Tables

variable {κ α : Type} [BEq κ] [LawfulBEq κ] {good : α → Prop} {same : α → α → Bool}

def entriesOf (keys : List κ) (table : κ → Option α) : List (κ × α) :=
  keys.filterMap fun key => (table key).map (key, ·)

omit [BEq κ] [LawfulBEq κ] in
theorem mem_entries_of_iff {keys : List κ} {table : κ → Option α} {key : κ} {value : α} :
    (key, value) ∈ entriesOf keys table ↔ key ∈ keys ∧ table key = some value := by
  simp only [entriesOf, List.mem_filterMap, Option.map_eq_some_iff, Prod.mk.injEq]
  constructor
  · rintro ⟨_, member, _, found, rfl, rfl⟩
    exact ⟨member, found⟩
  · exact fun ⟨member, found⟩ => ⟨key, member, value, found, rfl, rfl⟩

theorem lookup_entries_of (keys : List κ) (table : κ → Option α) (key : κ) :
    (entriesOf keys table).lookup key = if key ∈ keys then table key else none := by
  induction keys with
  | nil => rfl
  | cons first rest ih =>
      unfold entriesOf at ih ⊢
      cases found : table first with
      | none =>
          rw [List.filterMap_cons_none (by rw [found]; rfl), ih]
          by_cases here : key = first
          · rw [if_pos (List.mem_cons.2 (Or.inl here)), here, found, ite_self]
          · simp only [List.mem_cons, here, false_or]
      | some value =>
          rw [List.filterMap_cons_some (by rw [found]; rfl), List.lookup_cons, ih]
          by_cases here : key = first
          · rw [if_pos (List.mem_cons.2 (Or.inl here)), here, found, beq_self_eq_true]
          · rw [beq_false_of_ne here]
            simp only [List.mem_cons, here, false_or]

omit [BEq κ] [LawfulBEq κ] in
/-- Where as many keys are needed as are there, those that are there are needed. -/
theorem needed_of_count_eq {keys : List κ} {needed there : κ → Bool}
    (found : ∀ key ∈ keys, needed key = true → there key = true)
    (counts : keys.countP needed = keys.countP there) :
    ∀ key ∈ keys, there key = true → needed key = true := by
  induction keys with
  | nil => exact fun key none => absurd none List.not_mem_nil
  | cons first rest ih =>
      obtain ⟨firstFound, restFound⟩ := List.forall_mem_cons.1 found
      have fewer := List.countP_mono_left restFound
      rw [List.countP_cons, List.countP_cons] at counts
      -- If the first key were there only, the other counts would have to differ the other way.
      have firstNeeded : there first = true → needed first = true := by
        intro isThere
        by_contra notNeeded
        rw [if_neg notNeeded, if_pos isThere] at counts
        omega
      have same : needed first = there first := Bool.eq_iff_iff.2 ⟨firstFound, firstNeeded⟩
      rw [same] at counts
      exact List.forall_mem_cons.2 ⟨firstNeeded, ih restFound (Nat.add_right_cancel counts)⟩

omit [BEq κ] [LawfulBEq κ] in
theorem length_entries_of (keys : List κ) (table : κ → Option α) :
    (entriesOf keys table).length = keys.countP fun key => (table key).isSome := by
  rw [entriesOf, List.length_filterMap_eq_countP]
  simp only [Option.isSome_map]

/-- Tables that have as many values, where those of the one have equals in the other, have equal
values under all keys. -/
theorem same_entries_iff (keys : List κ) (table other : κ → Option α) :
    sameEntries same (entriesOf keys table) (entriesOf keys other) = true ↔
      (keys.all fun key => Pulse.sameOption same (table key) (other key)) = true := by
  rw [sameEntries, Bool.and_eq_true, beq_iff_eq, List.all_eq_true, List.all_eq_true,
    length_entries_of, length_entries_of]
  constructor
  · rintro ⟨counts, each⟩
    have looked : ∀ key ∈ keys, ∀ value, table key = some value →
        (other key).any (same value) = true := by
      intro key member value found
      have equal := each (key, value) (mem_entries_of_iff.2 ⟨member, found⟩)
      rwa [lookup_entries_of, if_pos member] at equal
    have there : ∀ key ∈ keys, (table key).isSome = true → (other key).isSome = true := by
      intro key member given
      obtain ⟨value, found⟩ := Option.isSome_iff_exists.1 given
      obtain ⟨_, otherFound, _⟩ := (Option.any_eq_true _ _).1 (looked key member value found)
      exact Option.isSome_iff_exists.2 ⟨_, otherFound⟩
    have needed := needed_of_count_eq there counts
    intro key member
    cases found : table key with
    | none =>
        cases otherFound : other key with
        | none => rfl
        | some value =>
            have given := needed key member (by rw [otherFound]; rfl)
            rw [found] at given
            cases given
    | some value =>
        obtain ⟨_, otherFound, equal⟩ := (Option.any_eq_true _ _).1 (looked key member value found)
        rw [otherFound]
        exact equal
  · intro each
    refine ⟨List.countP_congr fun key member => ?_, fun entry member => ?_⟩
    · have equal := each key member
      revert equal
      cases table key <;> cases other key <;> simp [Pulse.sameOption]
    · obtain ⟨keyMember, found⟩ := mem_entries_of_iff.1 member
      have equal := each entry.1 keyMember
      rw [found] at equal
      rw [lookup_entries_of, if_pos keyMember]
      cases otherFound : other entry.1 with
      | none =>
          rw [otherFound] at equal
          cases equal
      | some value =>
          rw [otherFound] at equal
          exact equal

/-- Where the values of tables are compared by what decides their equality, so are the tables. -/
theorem equal_entries_eq_same {equal : α → α → Bool} {keys : List κ} {table other : κ → Option α}
    (tableGood : ∀ key ∈ keys, ∀ value ∈ table key, good value)
    (otherGood : ∀ key ∈ keys, ∀ value ∈ other key, good value)
    (decides : ∀ value otherValue, good value → good otherValue →
      equal value otherValue = same value otherValue) :
    sameEntries equal (entriesOf keys table) (entriesOf keys other) =
      keys.all fun key => Pulse.sameOption same (table key) (other key) := by
  rw [Bool.eq_iff_iff, same_entries_iff, List.all_eq_true, List.all_eq_true]
  refine forall₂_congr fun key member => ?_
  rw [same_option_congr fun value found otherValue otherFound =>
    decides value otherValue (tableGood key member value found)
      (otherGood key member otherValue otherFound)]

omit [BEq κ] [LawfulBEq κ] in
theorem flat_map_entries_of {β : Type} (keys : List κ) (table : κ → Option α)
    (image : κ × α → List β) :
    (entriesOf keys table).flatMap image =
      keys.flatMap fun key => (table key).elim [] fun value => image (key, value) := by
  unfold entriesOf
  induction keys with
  | nil => rfl
  | cons first rest ih =>
      rw [List.flatMap_cons, ← ih]
      cases found : table first with
      | none => rw [List.filterMap_cons_none (by rw [found]; rfl)]; rfl
      | some value => rw [List.filterMap_cons_some (by rw [found]; rfl), List.flatMap_cons]; rfl

omit [BEq κ] [LawfulBEq κ] in
theorem words_of_same {fingerprint : α → UInt64} (consistent : Consistent good same fingerprint)
    (code : κ → UInt64) {keys : List κ} {table other : κ → Option α}
    (tableGood : ∀ key ∈ keys, ∀ value ∈ table key, good value)
    (otherGood : ∀ key ∈ keys, ∀ value ∈ other key, good value)
    (equal : (keys.all fun key => Pulse.sameOption same (table key) (other key)) = true) :
    (entriesOf keys table).flatMap (fun entry => [code entry.1, fingerprint entry.2]) =
      (entriesOf keys other).flatMap fun entry => [code entry.1, fingerprint entry.2] := by
  rw [flat_map_entries_of, flat_map_entries_of]
  refine List.flatMap_congr fun key member => ?_
  have keyEqual := List.all_eq_true.1 equal key member
  match found : table key, otherFound : other key with
  | none, none => rfl
  | some value, some otherValue =>
      rw [found, otherFound] at keyEqual
      have word := consistent.fingerprints value otherValue (tableGood key member value found)
        (otherGood key member otherValue otherFound) keyEqual
      simp only [Option.elim, word]
  | none, some _ | some _, none =>
      rw [found, otherFound] at keyEqual
      cases keyEqual

end Tables

namespace Head

variable {τ : Type} {goodTable : τ → Prop} {goodInterval : Interval → Prop}
  {sameTable equalTable : τ → τ → Bool} {sameInterval equalInterval : Interval → Interval → Bool}

def Good (goodTable : τ → Prop) (goodInterval : Interval → Prop) : Head τ → Prop
  | .plain table => goodTable table
  | .slice interval => goodInterval interval
  | .append | .named _ => True

theorem agree_equivalent (tables : EquivalentOn goodTable sameTable)
    (intervals : EquivalentOn goodInterval sameInterval) :
    EquivalentOn (Good goodTable goodInterval) (agree sameTable sameInterval) where
  refl head isGood := by
    cases head with
    | plain table => exact tables.refl table isGood
    | slice interval => exact intervals.refl interval isGood
    | append => rfl
    | named name => exact beq_self_eq_true name
  symm first second firstGood secondGood agreed := by
    match first, second with
    | .plain table, .plain other => exact tables.symm _ _ firstGood secondGood agreed
    | .slice interval, .slice other => exact intervals.symm _ _ firstGood secondGood agreed
    | .append, .append => rfl
    | .named name, .named other => exact beq_iff_eq.2 (beq_iff_eq.1 agreed).symm
  trans first second third firstGood secondGood thirdGood agreed next := by
    match first, second, third with
    | .plain table, .plain other, .plain last =>
        exact tables.trans _ _ _ firstGood secondGood thirdGood agreed next
    | .slice interval, .slice other, .slice last =>
        exact intervals.trans _ _ _ firstGood secondGood thirdGood agreed next
    | .append, .append, .append => rfl
    | .named name, .named other, .named last =>
        exact beq_iff_eq.2 ((beq_iff_eq.1 agreed).trans (beq_iff_eq.1 next))

theorem agree_congr {first second : Head τ} (firstGood : first.Good goodTable goodInterval)
    (secondGood : second.Good goodTable goodInterval)
    (tables : ∀ table other, goodTable table → goodTable other →
      equalTable table other = sameTable table other)
    (intervals : ∀ interval other, goodInterval interval → goodInterval other →
      equalInterval interval other = sameInterval interval other) :
    first.agree equalTable equalInterval second = first.agree sameTable sameInterval second := by
  cases first <;> cases second <;>
    first
    | rfl
    | exact tables _ _ firstGood secondGood
    | exact intervals _ _ firstGood secondGood

end Head

/-- Nodes by their heads and children: what holds of a node, and equality of nodes. -/
structure Composed {ν τ : Type} [Branching ν] (head : ν → Head τ) (goodTable : τ → Prop)
    (sameTable : τ → τ → Bool) (good : ν → Prop) (same : ν → ν → Bool) : Prop where
  good_iff : ∀ node, good node ↔
    (head node).Good goodTable (Interval.Each fun scalar => scalar.tidy = true) ∧
      ∀ child ∈ Branching.children node, good child
  same_iff : ∀ left right, same left right = true ↔
    (head left).agree sameTable Interval.same (head right) = true ∧
      List.Forall₂ (fun child other => same child other = true)
        (Branching.children left) (Branching.children right)

namespace Composed

variable {ν τ : Type} [Branching ν] {head : ν → Head τ} {goodTable : τ → Prop}
  {sameTable equalTable : τ → τ → Bool} {good : ν → Prop} {same : ν → ν → Bool}

theorem by_parts (composed : Composed head goodTable sameTable good same)
    (tables : ∀ table other, goodTable table → goodTable other →
      equalTable table other = sameTable table other) :
    ByParts good (fun left right =>
      (head left).agree equalTable (Interval.equal identities) (head right)) same where
  closed node isGood := ((composed.good_iff node).1 isGood).2
  parts left right leftGood rightGood := by
    rw [Head.agree_congr ((composed.good_iff left).1 leftGood).1
      ((composed.good_iff right).1 rightGood).1 tables
      fun _ _ tidied otherTidied => Interval.equal_eq_same identities tidied otherTidied]
    exact composed.same_iff left right

theorem agreement (composed : Composed head goodTable sameTable good same)
    (tables : EquivalentOn goodTable sameTable) :
    EquivalentOn good fun left right =>
      (head left).agree sameTable Interval.same (head right) :=
  ((Head.agree_equivalent tables Interval.consistent.toEquivalentOn).comap head).mono
    (fun node isGood => ((composed.good_iff node).1 isGood).1) fun _ _ _ _ => rfl

theorem consistent (composed : Composed head goodTable sameTable good same)
    (tables : EquivalentOn goodTable sameTable) {fingerprint : ν → UInt64}
    (words : ∀ left right, good left → good right →
      (head left).agree sameTable Interval.same (head right) = true →
      List.Forall₂ (fun child other => fingerprint child = fingerprint other)
        (Branching.children left) (Branching.children right) →
      fingerprint left = fingerprint right) :
    Consistent good same fingerprint := by
  have byParts : ByParts good (fun left right =>
      (head left).agree sameTable Interval.same (head right)) same :=
    ⟨fun node isGood => ((composed.good_iff node).1 isGood).2,
      fun left right _ _ => composed.same_iff left right⟩
  exact byParts.consistent (composed.agreement tables) words

end Composed

def PerField.Tidy (fields : PerField Field) : Prop :=
  ∀ entry ∈ fields.entries, entry.2.Tidy

theorem PerField.Tidy.field {fields : PerField Field} (tidied : fields.Tidy) :
    ∀ name ∈ FieldName.all, ∀ field ∈ fields.get? name, field.Tidy := fun name member field found =>
  tidied (name, field) (mem_entries_of_iff.2 ⟨member, found⟩)

namespace Pulse

def Tidy : Pulse → Prop :=
  Each PerField.Tidy (Interval.Each fun scalar => scalar.tidy = true)

theorem same_all_iff (lefts rights : List Pulse) :
    sameAll lefts rights = true ↔
      List.Forall₂ (fun left right => left.same right = true) lefts rights := by
  induction lefts generalizing rights with
  | nil => cases rights <;> simp [sameAll]
  | cons left rest ih => cases rights <;> simp [sameAll, ih]

theorem fingerprints_eq_map (parts : List Pulse) : fingerprints parts = parts.map fingerprint := by
  induction parts with
  | nil => rfl
  | cons part rest ih => rw [fingerprints, ih, List.map_cons]

theorem fields_equivalent : EquivalentOn PerField.Tidy sameFields :=
  (((Field.consistent).options.functions FieldName.all).comap PerField.get?).mono
    (fun _ tidied => tidied.field) fun _ _ _ _ => rfl

theorem composed : Composed head PerField.Tidy sameFields Tidy same where
  good_iff pulse := by
    cases pulse <;> simp [Tidy, head, Head.Good, Branching.children, children, and_comm]
  same_iff left right := by
    cases left <;> cases right <;>
      simp [same, head, Head.agree, Branching.children, children, same_all_iff]

theorem equal_fields_eq_same {fields others : PerField Field} (tidied : fields.Tidy)
    (otherTidied : others.Tidy) :
    sameEntries (Field.equal identities) fields.entries others.entries =
      sameFields fields others :=
  equal_entries_eq_same tidied.field otherTidied.field fun _ _ => Field.equal_eq_same identities

theorem consistent : Consistent Tidy same fingerprint := by
  refine Composed.consistent composed fields_equivalent
    fun left right leftTidy rightTidy agreed words => ?_
  match left, right with
  | .plain fields, .plain others =>
      exact congrArg (Fingerprint.mixAll _) (words_of_same Field.consistent FieldName.code
        leftTidy.field rightTidy.field agreed)
  | .append parts, .append others =>
      rw [fingerprint, fingerprint, fingerprints_eq_map, fingerprints_eq_map]
      exact congrArg _ (Outcome.map_eq_of_related words fun _ _ word => word.symm).symm
  | .slice inner interval, .slice other otherInterval =>
      rw [fingerprint, fingerprint, (List.forall₂_cons.1 words).1,
        Interval.consistent.fingerprints _ _ leftTidy.2 rightTidy.2 agreed]
  | .named name inner, .named otherName other =>
      rw [fingerprint, fingerprint, (List.forall₂_cons.1 words).1, beq_iff_eq.1 agreed]

theorem equal_eq_same {left right : Pulse} (leftTidy : left.Tidy) (rightTidy : right.Tidy) :
    left.equal identities right = left.same right := by
  have byParts : ByParts Tidy (comparison identities).agree same :=
    Composed.by_parts identities composed fun _ _ => equal_fields_eq_same identities
  exact byParts.equal_eq_same consistent leftTidy rightTidy

end Pulse

def PerCoupling.Tidy (pulses : PerCoupling Pulse) : Prop :=
  ∀ entry ∈ pulses.entries, entry.2.Tidy

theorem PerCoupling.Tidy.pulse {pulses : PerCoupling Pulse} (tidied : pulses.Tidy) :
    ∀ coupling ∈ Coupling.all, ∀ pulse ∈ pulses.get? coupling, pulse.Tidy :=
  fun coupling member pulse found =>
    tidied (coupling, pulse) (mem_entries_of_iff.2 ⟨member, found⟩)

namespace Sequence

def Tidy : Sequence → Prop :=
  Each PerCoupling.Tidy (Interval.Each fun scalar => scalar.tidy = true)

theorem same_all_iff (lefts rights : List Sequence) :
    sameAll lefts rights = true ↔
      List.Forall₂ (fun left right => left.same right = true) lefts rights := by
  induction lefts generalizing rights with
  | nil => cases rights <;> simp [sameAll]
  | cons left rest ih => cases rights <;> simp [sameAll, ih]

theorem fingerprints_eq_map (parts : List Sequence) :
    fingerprints parts = parts.map fingerprint := by
  induction parts with
  | nil => rfl
  | cons part rest ih => rw [fingerprints, ih, List.map_cons]

theorem pulses_equivalent : EquivalentOn PerCoupling.Tidy samePulses :=
  (((Pulse.consistent).options.functions Coupling.all).comap PerCoupling.get?).mono
    (fun _ tidied => tidied.pulse) fun _ _ _ _ => rfl

theorem composed : Composed head PerCoupling.Tidy samePulses Tidy same where
  good_iff sequence := by
    cases sequence <;> simp [Tidy, head, Head.Good, Branching.children, children, and_comm]
  same_iff left right := by
    cases left <;> cases right <;>
      simp [same, head, Head.agree, Branching.children, children, same_all_iff]

theorem equal_pulses_eq_same {pulses others : PerCoupling Pulse} (tidied : pulses.Tidy)
    (otherTidied : others.Tidy) :
    sameEntries (Pulse.equal identities) pulses.entries others.entries =
      samePulses pulses others :=
  equal_entries_eq_same tidied.pulse otherTidied.pulse fun _ _ => Pulse.equal_eq_same identities

theorem consistent : Consistent Tidy same fingerprint := by
  refine Composed.consistent composed pulses_equivalent
    fun left right leftTidy rightTidy agreed words => ?_
  match left, right with
  | .plain pulses, .plain others =>
      exact congrArg (Fingerprint.mixAll _) (words_of_same Pulse.consistent Coupling.code
        leftTidy.pulse rightTidy.pulse agreed)
  | .append parts, .append others =>
      rw [fingerprint, fingerprint, fingerprints_eq_map, fingerprints_eq_map]
      exact congrArg _ (Outcome.map_eq_of_related words fun _ _ word => word.symm).symm
  | .slice inner interval, .slice other otherInterval =>
      rw [fingerprint, fingerprint, (List.forall₂_cons.1 words).1,
        Interval.consistent.fingerprints _ _ leftTidy.2 rightTidy.2 agreed]
  | .named name inner, .named otherName other =>
      rw [fingerprint, fingerprint, (List.forall₂_cons.1 words).1, beq_iff_eq.1 agreed]

theorem equal_eq_same {left right : Sequence} (leftTidy : left.Tidy) (rightTidy : right.Tidy) :
    left.equal identities right = left.same right := by
  have byParts : ByParts Tidy (comparison identities).agree same :=
    Composed.by_parts identities composed fun _ _ => equal_pulses_eq_same identities
  exact byParts.equal_eq_same consistent leftTidy rightTidy

end Sequence

/-- Modulations that constructors make. -/
inductive Modulation.Built : Modulation → Prop
  | uniform : Built .uniform
  | vector (name : String) : Built (.vector name)
  | assigned (name : String) (values : List Decimal) : Built (.assignedVector name values)
  | scaled {locations : List Location} : (∀ location ∈ locations, location.weight.Built) →
      Built (ofLocations locations)

/-- Drives are only put together, and so are waveforms. -/
structure Drive.Built (drive : Drive) : Prop where
  target : drive.target.Built
  waveform : drive.waveform.Each Scalar.Built

/-- Fields that are made of drives, whatever is known of shared nodes then. -/
inductive Field.Built : Field → Prop
  | assemble {identities : Identities} {drives : List Drive} : (∀ drive ∈ drives, drive.Built) →
      Built (assemble identities drives)

def Pulse.Built : Pulse → Prop :=
  Each (fun fields => ∀ entry ∈ fields.entries, entry.2.Built) (Interval.Each Scalar.Built)

def Sequence.Built : Sequence → Prop :=
  Each (fun pulses => ∀ entry ∈ pulses.entries, entry.2.Built) (Interval.Each Scalar.Built)

theorem Interval.built_tidy {interval : Interval} (built : interval.Each Scalar.Built) :
    interval.Each (·.tidy = true) := fun bound member => (built bound member).tidy

theorem Modulation.Built.tidy {modulation : Modulation} (built : modulation.Built) :
    modulation.EachWeight (·.tidy = true) := by
  cases built with
  | uniform | vector | assigned => trivial
  | scaled each =>
      refine of_locations_each (fun first second firstTidy secondTidy => ?_) fun location member =>
        (each location member).tidy
      rw [Scalar.tidy, firstTidy, secondTidy, Bool.and_self]

theorem Drive.Built.tidy {drive : Drive} (built : drive.Built) : drive.Each (·.tidy = true) :=
  ⟨built.target.tidy, built.waveform.mono fun _ scalarBuilt => scalarBuilt.tidy⟩

theorem Field.Built.tidy {field : Field} (built : field.Built) : field.Tidy := by
  cases built with
  | @assemble identities drives each =>
      have drivesTidy : ∀ drive ∈ drives, drive.Each (·.tidy = true) := fun drive member =>
        (each drive member).tidy
      rw [assemble_eq_of_drives identities drivesTidy]
      exact of_drives_tidy drivesTidy

theorem Pulse.Built.tidy {pulse : Pulse} (built : pulse.Built) : pulse.Tidy :=
  Each.mono pulse built (fun _ each entry member => (each entry member).tidy)
    fun _ bounds => Interval.built_tidy bounds

theorem Sequence.Built.tidy {sequence : Sequence} (built : sequence.Built) : sequence.Tidy :=
  Each.mono sequence built (fun _ each entry member => Pulse.Built.tidy (each entry member))
    fun _ bounds => Interval.built_tidy bounds

/-- Comparison is an equivalence among nodes that are built, whatever is known of shared nodes each
time, and nodes that are found equal have equal fingerprints. -/
structure Coherent {α : Type} (built : α → Prop) (equal : Identities → α → α → Bool)
    (fingerprint : α → UInt64) : Prop where
  refl : ∀ identities node, built node → equal identities node node = true
  symm : ∀ identities others first second, built first → built second →
    equal identities first second = true → equal others second first = true
  trans : ∀ identities others lasts first second third, built first → built second → built third →
    equal identities first second = true → equal others second third = true →
    equal lasts first third = true
  fingerprints : ∀ identities first second, built first → built second →
    equal identities first second = true → fingerprint first = fingerprint second

/-- Comparison is coherent if it decides a consistent equality. -/
theorem Consistent.coherent {α : Type} {good built : α → Prop} {same : α → α → Bool}
    {equal : Identities → α → α → Bool} {fingerprint : α → UInt64}
    (consistent : Consistent good same fingerprint) (tidied : ∀ node, built node → good node)
    (decides : ∀ identities left right, good left → good right →
      equal identities left right = same left right) : Coherent built equal fingerprint where
  refl identities node nodeBuilt := by
    have nodeGood := tidied node nodeBuilt
    rw [decides identities node node nodeGood nodeGood]
    exact consistent.refl node nodeGood
  symm identities others first second firstBuilt secondBuilt := by
    have firstGood := tidied first firstBuilt
    have secondGood := tidied second secondBuilt
    rw [decides identities first second firstGood secondGood,
      decides others second first secondGood firstGood]
    exact consistent.symm first second firstGood secondGood
  trans identities others lasts first second third firstBuilt secondBuilt thirdBuilt := by
    have firstGood := tidied first firstBuilt
    have secondGood := tidied second secondBuilt
    have thirdGood := tidied third thirdBuilt
    rw [decides identities first second firstGood secondGood,
      decides others second third secondGood thirdGood,
      decides lasts first third firstGood thirdGood]
    exact consistent.trans first second third firstGood secondGood thirdGood
  fingerprints identities first second firstBuilt secondBuilt := by
    have firstGood := tidied first firstBuilt
    have secondGood := tidied second secondBuilt
    rw [decides identities first second firstGood secondGood]
    exact consistent.fingerprints first second firstGood secondGood

theorem Channel.fingerprint_of_equal {first second : Channel}
    (equal : first.equal identities second = true) : first.fingerprint = second.fingerprint := by
  unfold Channel.equal Modulation.equal at equal
  simp only [Bool.and_eq_true, beq_iff_eq] at equal
  obtain ⟨⟨couplings, fields⟩, words, _⟩ := equal
  rw [fingerprint, fingerprint, couplings, fields, words]

/-- Drives with different modulations make the same field in any order. -/
theorem Field.assemble_of_perm (others lasts : Identities) {drives permuted : List Drive}
    (perm : drives.Perm permuted) (built : ∀ drive ∈ drives, drive.Built)
    (different : drives.Pairwise fun first second =>
      first.target.equal identities second.target = false) :
    (assemble others drives).equal identities (assemble lasts permuted) = true := by
  have tidied : ∀ drive ∈ drives, drive.Each (·.tidy = true) := fun drive member =>
    (built drive member).tidy
  have permutedTidy : ∀ drive ∈ permuted, drive.Each (·.tidy = true) := fun drive member =>
    tidied drive (perm.symm.subset member)
  have apart : Apart drives := different.imp_of_mem fun firstMember secondMember told => by
    rwa [← Modulation.equal_eq_same identities (tidied _ firstMember).target
      (tidied _ secondMember).target]
  rw [assemble_eq_of_drives others tidied, assemble_eq_of_drives lasts permutedTidy,
    equal_eq_same identities (of_drives_tidy tidied) (of_drives_tidy permutedTidy)]
  exact same_of_perm perm tidied apart

/-- Waveforms, modulations, fields, pulses and sequences are compared by equivalences that are
consistent with fingerprints, and so are channels. The order of drives does not matter. -/
theorem comparisons_coherent :
    Coherent (Waveform.Each Scalar.Built) Waveform.equal Waveform.fingerprint ∧
      Coherent Modulation.Built Modulation.equal Modulation.fingerprint ∧
      Coherent Field.Built Field.equal Field.fingerprint ∧
      Coherent Pulse.Built Pulse.equal Pulse.fingerprint ∧
      Coherent Sequence.Built Sequence.equal Sequence.fingerprint ∧
      (∀ (identities : Identities) (first second : Channel),
        first.equal identities second = true → first.fingerprint = second.fingerprint) ∧
      ∀ (identities others lasts : Identities) (drives permuted : List Drive),
        drives.Perm permuted → (∀ drive ∈ drives, drive.Built) →
        (drives.Pairwise fun first second =>
          first.target.equal identities second.target = false) →
        (Field.assemble others drives).equal identities (Field.assemble lasts permuted) = true := by
  refine ⟨?_, ?_, ?_, ?_, ?_, ?_, ?_⟩
  · exact Waveform.consistent.coherent
      (fun _ built => built.mono fun _ scalarBuilt => scalarBuilt.tidy)
      fun identities _ _ => Waveform.equal_eq_same identities
  · exact Modulation.consistent.coherent (fun _ built => built.tidy)
      fun identities _ _ => Modulation.equal_eq_same identities
  · exact Field.consistent.coherent (fun _ built => built.tidy)
      fun identities _ _ => Field.equal_eq_same identities
  · exact Pulse.consistent.coherent (fun _ built => Pulse.Built.tidy built)
      fun identities _ _ => Pulse.equal_eq_same identities
  · exact Sequence.consistent.coherent (fun _ built => Sequence.Built.tidy built)
      fun identities _ _ => Sequence.equal_eq_same identities
  · exact fun identities _ _ => Channel.fingerprint_of_equal identities
  · exact fun identities others lasts _ _ => Field.assemble_of_perm identities others lasts

def heldAtZero (target : Modulation) : Drive := ⟨target, .zero Scalar.one⟩

/-- Two drives make the same field in both orders, which hashes alike. -/
theorem two_drives_reordered :
    (Field.assemble {} [heldAtZero .uniform, heldAtZero (.vector "v")]).equal {}
        (Field.assemble {} [heldAtZero (.vector "v"), heldAtZero .uniform]) = true ∧
      (Field.assemble {} [heldAtZero .uniform, heldAtZero (.vector "v")]).fingerprint =
        (Field.assemble {} [heldAtZero (.vector "v"), heldAtZero .uniform]).fingerprint := by
  have drivesBuilt : ∀ drive ∈ [heldAtZero .uniform, heldAtZero (.vector "v")], drive.Built := by
    have zeroBuilt : (Waveform.zero Scalar.one).Each Scalar.Built := by
      rw [Waveform.each_iff]
      exact ⟨List.forall_mem_cons.2 ⟨.literal _, List.forall_mem_singleton.2 (.literal _)⟩,
        fun _ none => absurd none List.not_mem_nil⟩
    exact List.forall_mem_cons.2 ⟨⟨.uniform, zeroBuilt⟩,
      List.forall_mem_singleton.2 ⟨.vector "v", zeroBuilt⟩⟩
  have swapped : [heldAtZero .uniform, heldAtZero (.vector "v")].Perm
      [heldAtZero (.vector "v"), heldAtZero .uniform] := List.Perm.swap _ _ []
  obtain ⟨_, _, fields, _, _, _, reordered⟩ := comparisons_coherent
  have equal := reordered {} {} {} _ _ swapped drivesBuilt (by simp [heldAtZero, Modulation.equal])
  exact ⟨equal, fields.fingerprints {} _ _ (.assemble drivesBuilt)
    (.assemble fun drive member => drivesBuilt drive (swapped.symm.subset member)) equal⟩

end Analog
