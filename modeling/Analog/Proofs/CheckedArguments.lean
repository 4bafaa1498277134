import Analog.Proofs.ListForms

/-!
# Checks of arguments

A rule looks at the arguments of a list from left to right. Each look is a check against a
parameter: it succeeds exactly when the term of the argument may stand there, and otherwise it is a
complaint about the list or a term inside it. Checks that follow each other are one check of both
conditions, so what a rule checks can be read off from its steps.
-/

set_option autoImplicit false

namespace Analog.Tagged

open Text

/-- A term shows the kind of thing that it stands for. So do the items of an array and the value of
an entry. -/
inductive Shows : LocatedTerm → Fragment → Prop
  | symbol (span : Span) (name : String) : Shows (.symbol span name) (.symbol name)
  | array (span : Span) {items : List Argument}
      (each : ∀ item ∈ items, Shows item.term item.value) :
      Shows (.array span (items.map (·.term))) (.array (items.map (·.value)))
  | entry (span tagSpan : Span) {tag : String} {term : LocatedTerm} {value : Fragment}
      (isEntry : tag ∈ entryTags) (inner : Shows term value) :
      Shows (.list span [.symbol tagSpan tag, term]) (.entry tag value)
  | list (span : Span) (elements : List LocatedTerm) {value : Fragment}
      (made : value.kind ∉ [Kind.symbol, .array, .entry])
      (sameKind : (LocatedTerm.list span elements).kind? = some value.kind) :
      Shows (.list span elements) value

theorem entry_kind {span : Span} {elements : List LocatedTerm} {tag : String}
    (hasTag : (LocatedTerm.list span elements).tag? = some tag) (isTag : tag ∈ entryTags) :
    (LocatedTerm.list span elements).kind? = some .entry := by
  rw [LocatedTerm.kind?, LocatedTerm.form?, hasTag, Option.bind_some, form?, if_pos isTag]
  rfl

namespace Shows

variable {term : LocatedTerm} {value : Fragment}

theorem kind (shown : Shows term value) : term.kind? = some value.kind := by
  cases shown with
  | symbol span name => rfl
  | array span each => rfl
  | entry span tagSpan isEntry inner => exact entry_kind rfl isEntry
  | list span elements made sameKind => exact sameKind

theorem name (shown : Shows term value) : term.name? = value.symbol? := by
  cases shown with
  | symbol span name => rfl
  | array span each => rfl
  | entry span tagSpan isEntry inner => rfl
  | list span elements made sameKind =>
      cases value with
      | symbol name => simp [Fragment.kind] at made
      | node _
      | array _
      | entry _ _
      | location _
      | drive _
      | site _ => rfl

end Shows

def Sorts {α : Type} (sort : Fragment → Option α) (kind : Kind) : Prop :=
  ∀ fragment, (sort fragment).isSome = true ↔ fragment.kind = kind

theorem symbol_sorts : Sorts Fragment.symbol? .symbol := by
  rintro ((_ | _) | _) <;> simp [Fragment.symbol?, Fragment.kind, Node.kind]

theorem array_sorts : Sorts Fragment.array? .array := by
  rintro ((_ | _) | _) <;> simp [Fragment.array?, Fragment.kind, Node.kind]

theorem location_sorts : Sorts Fragment.location? .location := by
  rintro ((_ | _) | _) <;> simp [Fragment.location?, Fragment.kind, Node.kind]

theorem drive_sorts : Sorts Fragment.drive? .drive := by
  rintro ((_ | _) | _) <;> simp [Fragment.drive?, Fragment.kind, Node.kind]

theorem site_sorts : Sorts Fragment.site? .site := by
  rintro ((_ | _) | _) <;> simp [Fragment.site?, Fragment.kind, Node.kind]

theorem scalar_sorts : Sorts Fragment.scalar? .scalar := by
  rintro ((_ | _) | _) <;> simp [Fragment.scalar?, Fragment.kind, Node.kind]

theorem waveform_sorts : Sorts Fragment.waveform? .waveform := by
  rintro ((_ | _) | _) <;> simp [Fragment.waveform?, Fragment.kind, Node.kind]

theorem modulation_sorts : Sorts Fragment.modulation? .modulation := by
  rintro ((_ | _) | _) <;> simp [Fragment.modulation?, Fragment.kind, Node.kind]

theorem field_sorts : Sorts Fragment.field? .field := by
  rintro ((_ | _) | _) <;> simp [Fragment.field?, Fragment.kind, Node.kind]

theorem pulse_sorts : Sorts Fragment.pulse? .pulse := by
  rintro ((_ | _) | _) <;> simp [Fragment.pulse?, Fragment.kind, Node.kind]

theorem sequence_sorts : Sorts Fragment.sequence? .sequence := by
  rintro ((_ | _) | _) <;> simp [Fragment.sequence?, Fragment.kind, Node.kind]

theorem register_sorts : Sorts Fragment.register? .register := by
  rintro ((_ | _) | _) <;> simp [Fragment.register?, Fragment.kind, Node.kind]

def Call.terms (call : Call) : List LocatedTerm := call.arguments.map (·.term)

/-- An argument, or an item of one: its term is part of the list and shows what it stands for. -/
structure Call.Given (call : Call) (argument : Argument) : Prop where
  inside : argument.term.parts ⊆ call.list.parts
  shown : Shows argument.term argument.value

/-- All arguments are parts of the list and show what they stand for. -/
def Call.Sound (call : Call) : Prop :=
  ∀ argument ∈ call.arguments, call.Given argument

def Call.Complains {α : Type} (call : Call) (outcome : Outcome α) : Prop :=
  ∃ part ∈ call.list.parts, ∃ complaint, outcome = Tagged.complain call.source part complaint

/-- An outcome that is a good result where a condition holds and a complaint where it fails. -/
structure Call.Checks {α : Type} (call : Call) (fits : Prop) (outcome : Outcome α)
    (made : α → Prop) : Prop where
  passes : fits → ∃ value, outcome = .ok value ∧ made value
  complains : ¬fits → call.Complains outcome

section Checks

variable {α β : Type} {call : Call} {argument : Argument} {what : String} {fits further : Prop}
  {outcome : Outcome α} {made : α → Prop} {better : β → Prop}

theorem complains_list {complaint : String} : call.Complains (call.complain complaint : Outcome α) :=
  ⟨call.list, call.list.mem_own_parts, complaint, rfl⟩

theorem Call.Given.complains {complaint : String} (given : call.Given argument) :
    call.Complains (Tagged.complain call.source argument.term complaint : Outcome α) :=
  ⟨argument.term, given.inside argument.term.mem_own_parts, complaint, rfl⟩

theorem Call.Complains.bind {next : α → Outcome β} (complains : call.Complains outcome) :
    call.Complains (outcome >>= next) := by
  obtain ⟨part, inside, complaint, rfl⟩ := complains
  exact ⟨part, inside, complaint, rfl⟩

namespace Call.Checks

theorem passed {value : α} (holds : fits) (isMade : made value) :
    call.Checks fits (pure value) made :=
  ⟨fun _ => ⟨value, rfl, isMade⟩, fun fails => absurd holds fails⟩

theorem refused (fails : ¬fits) (complains : call.Complains outcome) :
    call.Checks fits outcome made :=
  ⟨fun holds => absurd holds fails, fun _ => complains⟩

theorem congr (checks : call.Checks fits outcome made) (iff : fits ↔ further) :
    call.Checks further outcome made :=
  propext iff ▸ checks

theorem mono {weaker : α → Prop} (checks : call.Checks fits outcome made)
    (implies : ∀ value, made value → weaker value) : call.Checks fits outcome weaker := by
  refine ⟨fun holds => ?_, checks.complains⟩
  obtain ⟨value, same, isMade⟩ := checks.passes holds
  exact ⟨value, same, implies value isMade⟩

theorem bind {next : α → Outcome β} (checks : call.Checks fits outcome made)
    (then_ : ∀ value, made value → call.Checks further (next value) better) :
    call.Checks (fits ∧ further) (outcome >>= next) better := by
  refine ⟨fun ⟨first, second⟩ => ?_, fun wrong => ?_⟩
  · obtain ⟨value, rfl, isMade⟩ := checks.passes first
    exact (then_ value isMade).passes second
  · by_cases first : fits
    · obtain ⟨value, rfl, isMade⟩ := checks.passes first
      exact (then_ value isMade).complains fun second => wrong ⟨first, second⟩
    · exact (checks.complains first).bind

theorem map {f : α → β} (checks : call.Checks fits outcome made)
    (makes : ∀ value, made value → better (f value)) :
    call.Checks fits (outcome >>= fun value => pure (f value)) better :=
  (checks.bind fun value isMade => passed trivial (makes value isMade)).congr (iff_of_eq (and_true fits))

end Call.Checks

theorem checks_mapM {items : List α} {work : α → Outcome β} {condition : α → Prop}
    {made : α → β → Prop}
    (each : ∀ item ∈ items, call.Checks (condition item) (work item) (made item)) :
    call.Checks (∀ item ∈ items, condition item) (items.mapM work)
      (List.Forall₂ made items) := by
  induction items with
  | nil => exact .passed (by simp) List.Forall₂.nil
  | cons item rest ih =>
      obtain ⟨first, others⟩ := List.forall_mem_cons.1 each
      rw [List.mapM_cons]
      refine (first.bind fun value isMade => (ih others).map fun values areMade => ?_).congr
        List.forall_mem_cons.symm
      exact List.Forall₂.cons isMade areMade

end Checks

theorem numbers_of_items {term : LocatedTerm} {items : List Argument} {values : List Decimal}
    (same : term.items? = some (items.map (·.term)))
    (each : List.Forall₂ (fun item value => item.term.number? = some value) items values) :
    term.numbers = values := by
  have elements : term.elements = items.map (·.term) := by
    cases term with
    | array span elements => exact Option.some.inj same
    | symbol span name => cases same
    | list span elements => cases same
  rw [LocatedTerm.numbers, elements]
  clear same elements
  induction each with
  | nil => rfl
  | cons isNumber _ ih => rw [List.map_cons, List.filterMap_cons_some isNumber, ih]

namespace Call.Given

variable {α : Type} {call : Call} {argument : Argument} {what : String} {made : α → Prop}
  (given : call.Given argument)
include given

theorem kind_iff {sort : Fragment → Option α} {kind : Kind} (sorts : Sorts sort kind) :
    (Parameter.kind kind).admits argument.term = true ↔
      (sort argument.value).isSome = true := by
  rw [sorts, Parameter.admits, decide_eq_true_eq, given.shown.kind, Option.some.injEq]

theorem need {sort : Fragment → Option α} {kind : Kind} (sorts : Sorts sort kind) :
    call.Checks ((Parameter.kind kind).admits argument.term = true)
      (call.need what sort argument) fun value => sort argument.value = some value := by
  rw [given.kind_iff sorts]
  unfold Call.need
  cases sort argument.value with
  | some value => exact .passed rfl rfl
  | none => exact .refused (by simp) given.complains

/-- A symbol whose text is checked, and something else after it. -/
theorem text {fits : String → Bool} {further : Prop} {next : String → Outcome α}
    (each : ∀ text, argument.term.name? = some text →
      call.Checks (fits text = true ∧ further) (next text) made) :
    call.Checks ((Parameter.word fits).admits argument.term = true ∧ further)
      (call.need what Fragment.symbol? argument >>= next) made := by
  unfold Call.need
  rw [Parameter.admits, ← given.shown.name]
  cases found : argument.term.name? with
  | some text => exact (each text found).congr (by simp)
  | none => exact .refused (by simp) given.complains.bind

theorem word {ofName? : String → Option α} :
    call.Checks ((Parameter.oneOf ofName?).admits argument.term = true)
      (call.word what ofName? argument) fun _ => True := by
  refine Checks.congr (given.text fun text _ => ?_) (iff_of_eq (and_true _))
  cases ofName? text with
  | some value => exact .passed ⟨rfl, trivial⟩ trivial
  | none => exact .refused (by simp) given.complains

theorem number : call.Checks (Parameter.number.admits argument.term = true)
    (call.number argument) fun value => argument.term.number? = some value := by
  refine Checks.congr (given.text fun text found => ?_) (iff_of_eq (and_true _))
  unfold Call.numberOf LocatedTerm.number?
  rw [found, Option.bind_some]
  cases Decimal.ofText text with
  | ok value => exact .passed ⟨rfl, trivial⟩ rfl
  | error _ => exact .refused (by simp [Except.toOption]) given.complains

theorem items : call.Checks (argument.term.items?.isSome = true) (call.items what argument)
    fun items => argument.term.items? = some (items.map (·.term)) ∧
      ∀ item ∈ items, call.Given item := by
  obtain ⟨inside, shown⟩ := given
  obtain ⟨term, value⟩ := argument
  have elsewhere (notArray : value.array? = none) (notItems : term.items? = none) :
      call.Checks (term.items?.isSome = true) (call.items what ⟨term, value⟩) fun items =>
        term.items? = some (items.map (·.term)) ∧ ∀ item ∈ items, call.Given item := by
    refine .refused (by simp [notItems]) (Complains.bind ?_)
    unfold Call.need
    rw [notArray]
    exact Given.complains ⟨inside, shown⟩
  cases shown with
  | symbol span name => exact elsewhere rfl rfl
  | entry span tagSpan isEntry inner => exact elsewhere rfl rfl
  | list span elements made sameKind =>
      refine elsewhere (Option.not_isSome_iff_eq_none.1 fun isArray => made ?_) rfl
      rw [(array_sorts value).1 isArray]
      decide
  | array span each =>
      refine ⟨fun _ => ⟨_, items_of_array _ _ _, rfl, fun item member => ⟨?_, each item member⟩⟩,
        fun wrong => absurd rfl wrong⟩
      refine List.Subset.trans (fun part isPart => ?_) inside
      rw [LocatedTerm.parts, List.mem_cons, LocatedTerm.mem_parts_all]
      exact .inr ⟨item.term, List.mem_map_of_mem member, isPart⟩

theorem array {item : Parameter} {work : Argument → Outcome α} {made : Argument → α → Prop}
    (each : ∀ argument, call.Given argument →
      call.Checks (item.admits argument.term = true) (work argument) (made argument)) :
    call.Checks ((Parameter.arrayOf item).admits argument.term = true)
      (call.items what argument >>= fun items => items.mapM work) fun results =>
        ∃ items : List Argument, argument.term.items? = some (items.map (·.term)) ∧
          List.Forall₂ made items results := by
  have itemsChecked : call.Checks _ (call.items what argument) _ := given.items
  have eachChecked : ∀ items : List Argument,
      argument.term.items? = some (items.map (·.term)) ∧ (∀ item ∈ items, call.Given item) →
      call.Checks (∀ elements, argument.term.items? = some elements → elements.all item.admits = true)
        (items.mapM work) fun results =>
          ∃ items : List Argument, argument.term.items? = some (items.map (·.term)) ∧
            List.Forall₂ made items results := by
    rintro items ⟨same, itemsGiven⟩
    refine ((checks_mapM fun item member => each item (itemsGiven item member)).mono
      fun results areMade => ⟨items, same, areMade⟩).congr ?_
    simp [same]
  refine (itemsChecked.bind eachChecked).congr ?_
  rw [Parameter.admits]
  cases argument.term.items? <;> simp

theorem numbers : call.Checks (Parameter.numbers.admits argument.term = true)
    (call.numbers argument) fun values => argument.term.numbers = values := by
  refine (given.array fun item itemGiven => itemGiven.number).mono ?_
  rintro values ⟨items, same, each⟩
  exact numbers_of_items same each

/-! A symbol has to fit, and anything else has to be of the kind. -/

theorem word_of_symbol {fits : String → Bool} {name : String}
    (isSymbol : argument.value = .symbol name) :
    (Parameter.word fits).admits argument.term = fits name := by
  rw [Parameter.admits, given.shown.name, isSymbol]
  rfl

theorem either_of_symbol {fits : String → Bool} {kind : Kind} {name : String}
    (isSymbol : argument.value = .symbol name) (notSymbol : kind ≠ .symbol) :
    (Parameter.either (.word fits) (.kind kind)).admits argument.term = fits name := by
  have otherKind : (Parameter.kind kind).admits argument.term = false := by
    rw [Parameter.admits, given.shown.kind, isSymbol]
    simpa [Fragment.kind] using notSymbol.symm
  rw [Parameter.admits, otherKind, Bool.or_false, given.word_of_symbol isSymbol]

theorem either_of_other {fits : String → Bool} {kind : Kind}
    (notSymbol : ∀ name, argument.value ≠ .symbol name) :
    (Parameter.either (.word fits) (.kind kind)).admits argument.term =
      (Parameter.kind kind).admits argument.term := by
  have noWord : (Parameter.word fits).admits argument.term = false := by
    rw [Parameter.admits, given.shown.name, Option.any_eq_false]
    exact fun name found => absurd ((Fragment.symbol_iff _ name).1 found) (notSymbol name)
  change ((Parameter.word fits).admits argument.term || _) = _
  rw [noWord, Bool.false_or]

theorem bound : call.Checks (Parameter.bound.admits argument.term = true) (call.bound argument)
    fun _ => True := by
  unfold Call.bound Parameter.bound Parameter.scalar
  split
  · rename_i name isSymbol
    rw [given.either_of_symbol isSymbol (by decide), beq_iff_eq]
    split_ifs with isAbsent
    · exact .passed isAbsent trivial
    · exact .refused isAbsent given.complains
  · rename_i notSymbol
    rw [given.either_of_other notSymbol]
    exact (given.need scalar_sorts).map fun _ _ => trivial

theorem fill : call.Checks ((Parameter.either .side .scalar).admits argument.term = true)
    (Rule.fillValue call argument) fun _ => True := by
  unfold Rule.fillValue Parameter.side Parameter.oneOf Parameter.scalar
  split
  · rename_i name isSymbol
    rw [given.either_of_symbol isSymbol (by decide)]
    exact (given.word.map fun _ _ => trivial).congr
      (by rw [Parameter.oneOf, given.word_of_symbol isSymbol])
  · rename_i notSymbol
    rw [given.either_of_other notSymbol]
    exact (given.need scalar_sorts).map fun _ _ => trivial

end Call.Given

theorem interval_checks {call : Call} {start stop : Argument} (startGiven : call.Given start)
    (stopGiven : call.Given stop) :
    call.Checks (Parameter.bound.admits start.term = true ∧ Parameter.bound.admits stop.term = true)
      (call.interval start stop) fun _ => True :=
  startGiven.bound.bind fun _ _ => stopGiven.bound.map fun _ _ => trivial

/-- An entry has a value that is shown. What is no entry has no tag of one. -/
theorem Shows.entry_cases {term : LocatedTerm} {value : Fragment} (shown : Shows term value) :
    (∃ tag innerTerm inner, value.entry? = some (tag, inner) ∧ term.tag? = some tag ∧
      term.entry? = some (tag, innerTerm) ∧ Shows innerTerm inner) ∨
    value.entry? = none ∧ ∀ found, term.entry? = some found → found.1 ∉ entryTags := by
  cases shown with
  | symbol span name => exact .inr ⟨rfl, fun _ found => by cases found⟩
  | array span each => exact .inr ⟨rfl, fun _ found => by cases found⟩
  | entry span tagSpan isEntry inner => exact .inl ⟨_, _, _, rfl, rfl, rfl, inner⟩
  | list span elements made sameKind =>
      refine .inr ⟨?_, fun found isFound isTag => made ?_⟩
      · cases value with
        | entry tag inner => simp [Fragment.kind] at made
        | node _
        | symbol _
        | array _
        | location _
        | drive _
        | site _ => rfl
      · unfold LocatedTerm.entry? at isFound
        split at isFound
        · rename_i sameTerm
          cases sameTerm
          cases isFound
          rw [entry_kind rfl isTag, Option.some.injEq] at sameKind
          simp [← sameKind]
        · cases isFound

/-- A table of values of a kind, under keys that have tags as names. -/
structure Tabulates {κ α τ : Type} [DecidableEq κ] (ofName? : String → Option κ)
    (sort : Fragment → Option α) (kind : Kind) (get : τ → κ → Option α)
    (insert : τ → κ → α → τ) : Prop where
  sameName : ∀ {name other key}, ofName? name = some key → ofName? other = some key → name = other
  isTag : ∀ {name key}, ofName? name = some key → name ∈ entryTags
  sorts : Sorts sort kind
  getInsert : ∀ table key other value,
    get (insert table key value) other = if other = key then some value else get table other

def HasNames {κ α τ : Type} (ofName? : String → Option κ) (get : τ → κ → Option α) (table : τ)
    (names : List (Option String)) : Prop :=
  ∀ name key, ofName? name = some key → ((get table key).isSome = true ↔ some name ∈ names)

section Entries

variable {κ α τ : Type} {ofName? : String → Option κ} {sort : Fragment → Option α}
  {kind : Kind} {get : τ → κ → Option α} {insert : τ → κ → α → τ} {call : Call}

theorem entry_checks [DecidableEq κ] (tabulates : Tabulates ofName? sort kind get insert)
    {argument : Argument} (given : call.Given argument) {table : τ}
    {names : List (Option String)} (has : HasNames ofName? get table names)
    (what unknown unsorted twice : String) :
    call.Checks
      ((Parameter.under ofName? kind).admits argument.term = true ∧ argument.term.tag? ∉ names)
      (do
        let (name, value) ← call.need what Fragment.entry? argument
        match ofName? name, sort value with
        | none, _ => complain call.source argument.term unknown
        | some _, none => complain call.source argument.term unsorted
        | some key, some found =>
          if (get table key).isSome then complain call.source argument.term twice
          else return insert table key found)
      fun next => HasNames ofName? get next (argument.term.tag? :: names) := by
  unfold Call.need
  rcases given.shown.entry_cases with
    ⟨tag, innerTerm, inner, isEntry, hasTag, termEntry, shown⟩ | ⟨noEntry, noTag⟩
  · rw [isEntry, hasTag, Parameter.under, Parameter.admits, termEntry]
    simp only [Outcome.ok_bind, Option.any_some, Bool.and_eq_true, decide_eq_true_eq, shown.kind,
      Option.some.injEq, ← tabulates.sorts inner]
    cases known : ofName? tag with
    | none => exact .refused (by simp) given.complains
    | some key =>
        cases sort inner with
        | none => exact .refused (by simp) given.complains
        | some found =>
            dsimp only
            rw [← has tag key known]
            split_ifs with present
            · exact .refused (fun both => both.2 present) given.complains
            · refine .passed ⟨⟨rfl, rfl⟩, present⟩ fun name other otherKnown => ?_
              rw [tabulates.getInsert, List.mem_cons, Option.some.injEq, ← has name other otherKnown]
              split_ifs with sameKey
              · subst sameKey
                exact iff_of_true rfl (.inl (tabulates.sameName otherKnown known))
              · have different : name ≠ tag := fun same =>
                  sameKey (Option.some.inj (otherKnown.symm.trans (same ▸ known)))
                simp [different]
  · rw [noEntry]
    refine .refused (fun both => ?_) given.complains.bind
    rw [Parameter.under, Parameter.admits, Option.any_eq_true] at both
    obtain ⟨⟨⟨tag, inner⟩, found, fits⟩, _⟩ := both
    obtain ⟨key, known⟩ := Option.isSome_iff_exists.1 (Bool.and_eq_true_iff.1 fits).1
    exact noTag _ found (tabulates.isTag known)

/-- Entries are taken one by one, and none may come under a name that is there already. -/
theorem entries_check {step : τ → Argument → Outcome τ}
    (steps : ∀ {argument table names}, call.Given argument → HasNames ofName? get table names →
      call.Checks
        ((Parameter.under ofName? kind).admits argument.term = true ∧ argument.term.tag? ∉ names)
        (step table argument)
        fun next => HasNames ofName? get next (argument.term.tag? :: names))
    {arguments : List Argument} (each : ∀ argument ∈ arguments, call.Given argument) {table : τ}
    {names : List (Option String)} (has : HasNames ofName? get table names) :
    call.Checks
      ((∀ argument ∈ arguments,
        (Parameter.under ofName? kind).admits argument.term = true ∧
          argument.term.tag? ∉ names) ∧ (arguments.map (·.term.tag?)).Nodup)
      (arguments.foldlM step table) fun _ => True := by
  induction arguments generalizing table names with
  | nil => exact .passed (by simp) trivial
  | cons argument rest ih =>
      obtain ⟨given, restGiven⟩ := List.forall_mem_cons.1 each
      rw [List.foldlM_cons]
      refine ((steps given has).bind fun next nextHas => ih restGiven nextHas).congr ?_
      rw [List.forall_mem_cons, List.map_cons, List.nodup_cons]
      simp only [List.mem_cons, List.mem_map, not_or, not_exists, not_and]
      constructor
      · rintro ⟨first, others, once⟩
        exact ⟨⟨first, fun other member => ⟨(others other member).1, (others other member).2.2⟩⟩,
          fun other member => (others other member).2.1, once⟩
      · rintro ⟨⟨first, others⟩, apart, once⟩
        exact ⟨first, fun other member => ⟨(others other member).1, apart other member,
          (others other member).2⟩, once⟩

end Entries

end Analog.Tagged
