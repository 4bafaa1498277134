import Analog.Proofs.Outcomes
import Analog.Tagged.Reader

/-!
# Readings of terms

What a list or an array stands for comes from what its elements stand for. An argument of a list
keeps its term beside the value, and the two go together in every list that is read; so the items
of an array go with the elements of its term as well.
-/

set_option autoImplicit false

namespace Analog

/-- Induction over terms with spans, in which a list or array may assume the statement of every
element. -/
@[elab_as_elim]
theorem LocatedTerm.parts_induction {motive : LocatedTerm → Prop}
    (symbol : ∀ span name, motive (.symbol span name))
    (list : ∀ span elements, (∀ element ∈ elements, motive element) → motive (.list span elements))
    (array : ∀ span elements, (∀ element ∈ elements, motive element) → motive (.array span elements))
    (term : LocatedTerm) : motive term :=
  @LocatedTerm.rec motive (fun elements => ∀ element ∈ elements, motive element) symbol list array
    (fun _ member => absurd member List.not_mem_nil)
    (fun _ _ first rest element member =>
      (List.mem_cons.1 member).elim (fun same => same ▸ first) (rest element))
    term

theorem LocatedTerm.terms_eq_map (elements : List LocatedTerm) :
    terms elements = elements.map term := by
  induction elements with
  | nil => rfl
  | cons element rest ih => rw [terms, List.map_cons, ih]

namespace Fragment

variable (fragment : Fragment)

theorem symbol_iff (name : String) : fragment.symbol? = some name ↔ fragment = .symbol name := by
  unfold symbol?
  split <;> simp_all

theorem array_iff (items : List Fragment) :
    fragment.array? = some items ↔ fragment = .array items := by
  unfold array?
  split <;> simp_all

theorem entry_iff (found : String × Fragment) :
    fragment.entry? = some found ↔ fragment = .entry found.1 found.2 := by
  unfold entry?
  split <;> simp_all [Prod.ext_iff]

theorem location_iff (value : Location) :
    fragment.location? = some value ↔ fragment = .location value := by
  unfold location?
  split <;> simp_all

theorem drive_iff (value : Drive) : fragment.drive? = some value ↔ fragment = .drive value := by
  unfold drive?
  split <;> simp_all

theorem site_iff (value : Site) : fragment.site? = some value ↔ fragment = .site value := by
  unfold site?
  split <;> simp_all

theorem scalar_iff (value : Scalar) :
    fragment.scalar? = some value ↔ fragment = .node (.scalar value) := by
  unfold scalar?
  split <;> simp_all

theorem waveform_iff (value : Waveform) :
    fragment.waveform? = some value ↔ fragment = .node (.waveform value) := by
  unfold waveform?
  split <;> simp_all

theorem modulation_iff (value : Modulation) :
    fragment.modulation? = some value ↔ fragment = .node (.modulation value) := by
  unfold modulation?
  split <;> simp_all

theorem field_iff (value : Field) :
    fragment.field? = some value ↔ fragment = .node (.field value) := by
  unfold field?
  split <;> simp_all

theorem pulse_iff (value : Pulse) :
    fragment.pulse? = some value ↔ fragment = .node (.pulse value) := by
  unfold pulse?
  split <;> simp_all

theorem sequence_iff (value : Sequence) :
    fragment.sequence? = some value ↔ fragment = .node (.sequence value) := by
  unfold sequence?
  split <;> simp_all

theorem register_iff (value : Register) :
    fragment.register? = some value ↔ fragment = .node (.register value) := by
  unfold register?
  split <;> simp_all

end Fragment

namespace Tagged

open Text

variable {source : Source}

def Argument.Read (source : Source) (argument : Argument) : Prop :=
  readTerm source argument.term = .ok argument.value

def Call.Read (call : Call) : Prop :=
  ∀ argument ∈ call.arguments, argument.Read call.source

/-- The names of fields and couplings, which are the tags of entries. -/
def entryTags : List String :=
  FieldName.all.map (·.name) ++ Coupling.all.map (·.name)

theorem entry_tag_iff (tag : String) :
    tag ∈ entryTags ↔
      ((FieldName.ofName? tag).isSome || (Coupling.ofName? tag).isSome) = true := by
  simp [entryTags, FieldName.ofName?, Coupling.ofName?, List.find?_isSome]

theorem rule_cases {tag : String} {rule : Call → Outcome Fragment} (known : rule? tag = some rule) :
    tag ∈ entryTags ∧ rule = Rule.entry tag ∨ (tag, rule) ∈ rules := by
  unfold rule? at known
  split_ifs at known with isEntry
  · exact .inl ⟨(entry_tag_iff tag).2 isEntry, (Option.some.inj known).symm⟩
  · obtain ⟨before, after, split, _⟩ := List.lookup_eq_some_iff.1 known
    exact .inr (split ▸ by simp)

theorem read_terms_ok_iff (terms : List LocatedTerm) (arguments : List Argument) :
    readTerms source terms = .ok arguments ↔
      arguments.map (·.term) = terms ∧ ∀ argument ∈ arguments, argument.Read source := by
  induction terms generalizing arguments with
  | nil =>
      rw [readTerms, Except.ok.injEq, List.map_eq_nil_iff]
      exact ⟨fun same => ⟨same.symm, by simp [← same]⟩, fun ⟨same, _⟩ => same.symm⟩
  | cons term rest ih =>
      simp only [readTerms, Outcome.bind_ok_iff, Outcome.pure_ok_iff, ih]
      constructor
      · rintro ⟨value, valueRead, values, ⟨rfl, othersRead⟩, rfl⟩
        exact ⟨rfl, List.forall_mem_cons.2 ⟨valueRead, othersRead⟩⟩
      · rintro ⟨sameTerms, each⟩
        cases arguments with
        | nil => cases sameTerms
        | cons argument others =>
            obtain ⟨rfl, rfl⟩ := List.cons.inj sameTerms
            obtain ⟨firstRead, othersRead⟩ := List.forall_mem_cons.1 each
            exact ⟨_, firstRead, _, ⟨rfl, othersRead⟩, rfl⟩

theorem read_array_ok_iff (span : Span) (elements : List LocatedTerm) (fragment : Fragment) :
    readTerm source (.array span elements) = .ok fragment ↔
      ∃ items : List Argument, items.map (·.term) = elements ∧
        (∀ item ∈ items, item.Read source) ∧ fragment = .array (items.map (·.value)) := by
  simp only [readTerm, Outcome.bind_ok_iff, Outcome.pure_ok_iff, read_terms_ok_iff, and_assoc,
    eq_comm (b := fragment)]

theorem read_list_ok_iff (span : Span) (elements : List LocatedTerm) (fragment : Fragment) :
    readTerm source (.list span elements) = .ok fragment ↔
      ∃ head tag rule arguments, elements = (head :: arguments).map Argument.term ∧
        head.Read source ∧ head.value = .symbol tag ∧ rule? tag = some rule ∧
          Call.Read ⟨source, .list span elements, arguments⟩ ∧
            rule ⟨source, .list span elements, arguments⟩ = .ok fragment := by
  simp only [readTerm, Outcome.bind_ok_iff, read_terms_ok_iff]
  constructor
  · rintro ⟨arguments, ⟨sameTerms, each⟩, read⟩
    unfold readList at read
    split at read
    · cases read
    rename_i head arguments
    split at read
    · rename_i tag isSymbol
      split at read
      · rename_i rule known
        obtain ⟨headRead, argumentsRead⟩ := List.forall_mem_cons.1 each
        exact ⟨head, tag, rule, arguments, sameTerms.symm, headRead, isSymbol, known,
          argumentsRead, read⟩
      · cases read
    · cases read
  · rintro ⟨head, tag, rule, arguments, rfl, headRead, isSymbol, known, argumentsRead, read⟩
    refine ⟨head :: arguments, ⟨rfl, List.forall_mem_cons.2 ⟨headRead, argumentsRead⟩⟩, ?_⟩
    simp only [readList, isSymbol, known, read]

namespace Call

variable {α : Type} {call : Call} {argument : Argument}

theorem need_ok_iff (what : String) (sort : Fragment → Option α) (value : α) :
    call.need what sort argument = .ok value ↔ sort argument.value = some value := by
  unfold need
  cases sort argument.value <;> simp [Tagged.complain]

theorem rely_ok_iff (sort : Fragment → Option α) (value : α) :
    rely sort argument = .ok value ↔ sort argument.value = some value := by
  unfold rely
  cases sort argument.value <;> simp

theorem number_ok_iff (value : Decimal) :
    call.number argument = .ok value ↔
      ∃ text, argument.value = .symbol text ∧ Decimal.ofText text = .ok value := by
  simp only [number, Outcome.bind_ok_iff, need_ok_iff, Fragment.symbol_iff]
  refine exists_congr fun text => and_congr_right fun _ => ?_
  unfold numberOf
  cases Decimal.ofText text <;> simp [Tagged.complain]

theorem items_ok_iff (what : String) (items : List Argument) :
    call.items what argument = .ok items ↔
      ∃ values, argument.value = .array values ∧
        List.zipWith Argument.mk argument.term.elements values = items := by
  simp only [Call.items, Outcome.bind_ok_iff, need_ok_iff, Fragment.array_iff, Outcome.pure_ok_iff]

/-- The items of an array are the elements of its term, each with its value. -/
theorem items_of_array (what : String) (span : Span) (items : List Argument) :
    call.items what ⟨.array span (items.map (·.term)), .array (items.map (·.value))⟩ =
      .ok items := by
  refine (items_ok_iff what items).2 ⟨_, rfl, ?_⟩
  rw [LocatedTerm.elements, List.zipWith_map]
  exact List.zipWith_self.trans (List.map_id _)

theorem value_of_item {what : String} {items : List Argument}
    (taken : call.items what argument = .ok items) {item : Argument} (member : item ∈ items) :
    ∃ values, argument.value = .array values ∧ item.value ∈ values := by
  obtain ⟨values, isArray, rfl⟩ := (items_ok_iff what items).1 taken
  refine ⟨values, isArray, ?_⟩
  rw [← List.map_uncurry_zip_eq_zipWith] at member
  obtain ⟨⟨term, value⟩, inZip, rfl⟩ := List.mem_map.1 member
  exact (List.of_mem_zip inZip).2

theorem bound_ok_iff (bound : Option Scalar) :
    call.bound argument = .ok bound ↔
      argument.value = .symbol absentBound ∧ bound = none ∨
        ∃ value, argument.value = scalarNode value ∧ bound = some value := by
  unfold Call.bound
  split
  · rename_i name isSymbol
    simp only [isSymbol, Fragment.symbol.injEq, scalarNode, reduceCtorEq, false_and, exists_false,
      or_false]
    split_ifs with isAbsent <;> simp [isAbsent, Tagged.complain, eq_comm]
  · rename_i notSymbol
    have notAbsent : argument.value ≠ .symbol absentBound := notSymbol absentBound
    simp only [notAbsent, false_and, false_or, Outcome.bind_ok_iff, need_ok_iff,
      Fragment.scalar_iff, Outcome.pure_ok_iff, scalarNode, eq_comm (b := bound)]

end Call

end Tagged

end Analog
