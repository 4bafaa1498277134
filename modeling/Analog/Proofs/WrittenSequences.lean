import Analog.Proofs.Breakpoints
import Analog.Proofs.WrittenNodes

/-!
# Sequences, registers and series that are written and read back

A table is written entry by entry in order of its keys, and no key comes twice, so reading fills
the same table again. Sites are written one by one and series by their breakpoints.
-/

set_option autoImplicit false

namespace Analog

open Tagged

theorem FieldName.rule_name (name : FieldName) : rule? name.name = some (Rule.entry name.name) := by
  cases name <;> rfl

theorem Coupling.rule_name (coupling : Coupling) :
    rule? coupling.name = some (Rule.entry coupling.name) := by
  cases coupling <;> rfl

theorem FieldName.of_name_name (name : FieldName) : ofName? name.name = some name := by
  cases name <;> rfl

theorem Coupling.of_name_name (coupling : Coupling) : ofName? coupling.name = some coupling := by
  cases coupling <;> rfl

theorem PerField.of_entries_entries {α : Type} (table : PerField α) :
    ofEntries table.entries = table := by
  obtain ⟨detuning, amplitude, phase⟩ := table
  cases detuning <;> cases amplitude <;> cases phase <;> rfl

theorem PerCoupling.of_entries_entries {α : Type} (table : PerCoupling α) :
    ofEntries table.entries = table := by
  obtain ⟨rydberg, hyperfine⟩ := table
  cases rydberg <;> cases hyperfine <;> rfl

theorem Tagged.fill_table {κ α τ : Type} [DecidableEq κ] {get : τ → κ → Option α}
    {insert : τ → κ → α → τ} (getInsert : ∀ table key other value,
      get (insert table key value) other = if other = key then some value else get table other)
    {step : τ → Argument → Outcome τ} {make : κ × α → Fragment}
    (steps : ∀ table entry argument, argument.value = make entry → get table entry.1 = none →
      step table argument = .ok (insert table entry.1 entry.2))
    {entries : List (κ × α)} (once : (entries.map Prod.fst).Nodup) {arguments : List Argument}
    (values : arguments.map (·.value) = entries.map make) {table : τ}
    (fresh : ∀ entry ∈ entries, get table entry.1 = none) :
    arguments.foldlM step table =
      .ok (entries.foldl (fun table entry => insert table entry.1 entry.2) table) := by
  induction entries generalizing arguments table with
  | nil =>
      rw [List.map_eq_nil_iff.1 values]
      rfl
  | cons entry rest ih =>
      cases arguments with
      | nil => cases values
      | cons argument others =>
          obtain ⟨isEntry, sameValues⟩ := List.cons.inj values
          obtain ⟨notLater, restOnce⟩ := List.nodup_cons.1 once
          rw [List.foldlM_cons, steps table entry argument isEntry (fresh entry (by simp))]
          refine ih restOnce sameValues fun other member => ?_
          have different : other.1 ≠ entry.1 := by
            intro sameKey
            exact notLater (sameKey ▸ List.mem_map_of_mem member)
          rw [getInsert, if_neg different]
          exact fresh other (by simp [member])

namespace Pulse

theorem same_append {parts : List Pulse} (each : ∀ part ∈ parts, part.same part = true) :
    (append parts).same (append parts) = true := by
  rw [Pulse.same]
  induction parts with
  | nil => rfl
  | cons part rest ih =>
      rw [sameAll, each part (by simp), ih fun other member => each other (by simp [member])]
      rfl

def fieldEntry (entry : FieldName × Field) : Fragment :=
  .entry entry.1.name (.node (.field entry.2))

theorem add_field_read (call : Call) (fields : PerField Field) (entry : FieldName × Field)
    (argument : Argument) (isEntry : argument.value = fieldEntry entry)
    (free : fields.get? entry.1 = none) :
    Rule.addField call fields argument = .ok (fields.insert entry.1 entry.2) := by
  have taken : call.need "field entry" Fragment.entry? argument =
      .ok (entry.1.name, .node (.field entry.2)) := by
    rw [Call.need_ok_iff, isEntry]
    rfl
  simp only [Rule.addField, taken, Outcome.ok_bind, FieldName.of_name_name, Fragment.field?, free]
  rfl

/-- The fields of a plain pulse are put back under their names. -/
theorem restored_plain {fields : PerField Field}
    (each : ∀ entry ∈ fields.entries, (Node.field entry.2).Restored) :
    (Node.pulse (plain fields)).Restored := by
  have entryWritten : ∀ entry ∈ fields.entries,
      Written (entry.2.write >>= fun term => pure (Term.tagged entry.1.name [term]))
        (fieldEntry entry) := by
    intro entry member
    exact (each entry member).written.map fun _ denotes =>
      denotes_one entry.1.rule_name denotes fun _ _ _ => rfl
  obtain ⟨terms, written, denotes⟩ := written_all entryWritten
  refine ⟨written_of_terms written (denotes_tagged rfl denotes fun call _ _ values => ?_), ?_⟩
  · have filled : call.arguments.foldlM (Rule.addField call) .empty =
        .ok (PerField.ofEntries fields.entries) :=
      Tagged.fill_table PerField.get_insert (add_field_read call) fields.entries_once values
        fun _ _ => PerField.get_empty _
    simp only [Rule.pulse, filled, PerField.of_entries_entries]
    rfl
  · rw [Node.same, Pulse.same, sameFields, List.all_eq_true]
    intro name _
    cases found : fields.get? name with
    | none => rfl
    | some field => exact (each (name, field) ((fields.mem_entries_iff name field).2 found)).same

theorem write_all_eq_mapM (parts : List Pulse) : writeAll parts = parts.mapM write := by
  induction parts with
  | nil => rfl
  | cons part rest ih => rw [writeAll, List.mapM_cons, ih]

theorem restored_append {parts : List Pulse}
    (each : ∀ part ∈ parts, (Node.pulse part).Restored) : (Node.pulse (append parts)).Restored := by
  obtain ⟨terms, written, denotes⟩ := written_all fun part member => (each part member).written
  refine ⟨written_of_terms ((write_all_eq_mapM parts).trans written)
    (denotes_tagged rfl denotes fun call _ _ values => ?_),
    same_append fun part member => (each part member).same⟩
  simp only [Rule.appendPulse, needs_of_values Fragment.pulse? (fun part => .node (.pulse part))
    (fun _ => rfl) values]
  rfl

theorem restored_slice {inner : Pulse} {interval : Interval} (restored : (Node.pulse inner).Restored)
    (bounds : interval.Restored) : (Node.pulse (slice inner interval)).Restored := by
  refine ⟨restored.written.map fun _ denotes => denotes_three rfl denotes
    (Scalar.denotes_bound bounds.1) (Scalar.denotes_bound bounds.2)
      fun source list one two three => ?_, Bool.and_eq_true_iff.2 ⟨interval.same_refl, restored.same⟩⟩
  simp only [Rule.slicePulse, Interval.read_back]
  rfl

theorem restored_named {name : String} {inner : Pulse} (isWord : IsWord name.toList)
    (restored : (Node.pulse inner).Restored) : (Node.pulse (named name inner)).Restored :=
  ⟨restored.written.map fun _ denotes =>
    denotes_two rfl (denotes_symbol isWord) denotes fun _ _ _ _ => rfl,
    Bool.and_eq_true_iff.2 ⟨beq_self_eq_true name, restored.same⟩⟩

end Pulse

namespace Sequence

theorem same_append {parts : List Sequence} (each : ∀ part ∈ parts, part.same part = true) :
    (append parts).same (append parts) = true := by
  rw [Sequence.same]
  induction parts with
  | nil => rfl
  | cons part rest ih =>
      rw [sameAll, each part (by simp), ih fun other member => each other (by simp [member])]
      rfl

def pulseEntry (entry : Coupling × Pulse) : Fragment :=
  .entry entry.1.name (.node (.pulse entry.2))

theorem add_pulse_read (call : Call) (pulses : PerCoupling Pulse) (entry : Coupling × Pulse)
    (argument : Argument) (isEntry : argument.value = pulseEntry entry)
    (free : pulses.get? entry.1 = none) :
    Rule.addPulse call pulses argument = .ok (pulses.insert entry.1 entry.2) := by
  have taken : call.need "coupling entry" Fragment.entry? argument =
      .ok (entry.1.name, .node (.pulse entry.2)) := by
    rw [Call.need_ok_iff, isEntry]
    rfl
  simp only [Rule.addPulse, taken, Outcome.ok_bind, Coupling.of_name_name, Fragment.pulse?, free]
  rfl

/-- The pulses of a plain sequence are put back under their couplings. -/
theorem restored_plain {pulses : PerCoupling Pulse}
    (each : ∀ entry ∈ pulses.entries, (Node.pulse entry.2).Restored) :
    (Node.sequence (plain pulses)).Restored := by
  have entryWritten : ∀ entry ∈ pulses.entries,
      Written (entry.2.write >>= fun term => pure (Term.tagged entry.1.name [term]))
        (pulseEntry entry) := by
    intro entry member
    exact (each entry member).written.map fun _ denotes =>
      denotes_one entry.1.rule_name denotes fun _ _ _ => rfl
  obtain ⟨terms, written, denotes⟩ := written_all entryWritten
  refine ⟨written_of_terms written (denotes_tagged rfl denotes fun call _ _ values => ?_), ?_⟩
  · have filled : call.arguments.foldlM (Rule.addPulse call) .empty =
        .ok (PerCoupling.ofEntries pulses.entries) :=
      Tagged.fill_table PerCoupling.get_insert (add_pulse_read call) pulses.entries_once values
        fun _ _ => PerCoupling.get_empty _
    simp only [Rule.sequence, filled, PerCoupling.of_entries_entries]
    rfl
  · rw [Node.same, Sequence.same, samePulses, List.all_eq_true]
    intro coupling _
    cases found : pulses.get? coupling with
    | none => rfl
    | some pulse => exact (each (coupling, pulse) ((pulses.mem_entries_iff coupling pulse).2 found)).same

theorem write_all_eq_mapM (parts : List Sequence) : writeAll parts = parts.mapM write := by
  induction parts with
  | nil => rfl
  | cons part rest ih => rw [writeAll, List.mapM_cons, ih]

theorem restored_append {parts : List Sequence}
    (each : ∀ part ∈ parts, (Node.sequence part).Restored) : (Node.sequence (append parts)).Restored := by
  obtain ⟨terms, written, denotes⟩ := written_all fun part member => (each part member).written
  refine ⟨written_of_terms ((write_all_eq_mapM parts).trans written)
    (denotes_tagged rfl denotes fun call _ _ values => ?_),
    same_append fun part member => (each part member).same⟩
  simp only [Rule.appendSequence, needs_of_values Fragment.sequence? (fun part => .node (.sequence part))
    (fun _ => rfl) values]
  rfl

theorem restored_slice {inner : Sequence} {interval : Interval} (restored : (Node.sequence inner).Restored)
    (bounds : interval.Restored) : (Node.sequence (slice inner interval)).Restored := by
  refine ⟨restored.written.map fun _ denotes => denotes_three rfl denotes
    (Scalar.denotes_bound bounds.1) (Scalar.denotes_bound bounds.2)
      fun source list one two three => ?_, Bool.and_eq_true_iff.2 ⟨interval.same_refl, restored.same⟩⟩
  simp only [Rule.sliceSequence, Interval.read_back]
  rfl

theorem restored_named {name : String} {inner : Sequence} (isWord : IsWord name.toList)
    (restored : (Node.sequence inner).Restored) : (Node.sequence (named name inner)).Restored :=
  ⟨restored.written.map fun _ denotes =>
    denotes_two rfl (denotes_symbol isWord) denotes fun _ _ _ _ => rfl,
    Bool.and_eq_true_iff.2 ⟨beq_self_eq_true name, restored.same⟩⟩

end Sequence

/-- The coordinates of a site have no longer scale than is read. -/
structure Site.Restored (site : Site) : Prop where
  x : site.position.x.scale ≤ Decimal.scaleLimit
  y : site.position.y.scale ≤ Decimal.scaleLimit

theorem Site.Restored.denotes {site : Site} (restored : site.Restored) :
    Denotes site.write (.site site) := by
  obtain ⟨⟨x, y⟩, filled⟩ := site
  have known : rule? (if filled then "site" else "vacant") = some (Rule.site filled) := by
    cases filled <;> rfl
  refine denotes_two known (denotes_number x) (denotes_number y) fun source list one two => ?_
  simp only [Rule.site, number_of_text restored.x, number_of_text restored.y]
  rfl

theorem Register.restored {register : Register} (each : ∀ site ∈ register.sites, site.Restored) :
    (Node.register register).Restored := by
  have denotes : List.Forall₂ Denotes (register.sites.map Site.write)
      (register.sites.map Fragment.site) := by
    rw [List.forall₂_map_left_iff, List.forall₂_map_right_iff, List.forall₂_same]
    exact fun site member => (each site member).denotes
  refine ⟨⟨_, rfl, denotes_tagged rfl denotes fun call _ _ values => ?_⟩, beq_self_eq_true register⟩
  simp only [Rule.register, needs_of_values Fragment.site? Fragment.site (fun _ => rfl) values]
  rfl

theorem Circuit.restored {register : Register} {sequence : Sequence}
    (registerRestored : (Node.register register).Restored)
    (sequenceRestored : (Node.sequence sequence).Restored) :
    (Node.circuit ⟨.plain register, sequence⟩).Restored := by
  obtain ⟨⟨_, registerWritten, registerDenotes⟩, _⟩ := registerRestored
  cases registerWritten
  exact ⟨sequenceRestored.written.map fun _ denotes =>
    denotes_two rfl registerDenotes denotes fun _ _ _ _ => rfl,
    Bool.and_eq_true_iff.2 ⟨beq_self_eq_true (Layout.plain register), sequenceRestored.same⟩⟩

namespace Series

open Breakpoints

theorem same_refl (series : Series) : series.same series = true := by
  cases series <;> simp [Series.same, LinearSeries.same, ConstantSeries.same]

theorem restored {series : Series}
    (own : ofLists series.target (times series.points) (values series.points) = .ok series)
    (timesShort : ∀ time ∈ times series.points, time.scale ≤ Decimal.scaleLimit)
    (valuesShort : ∀ value ∈ values series.points, value.scale ≤ Decimal.scaleLimit) :
    (Node.series series).Restored := by
  have known : rule? series.tag = some (Rule.series (Series.ofLists series.target)) := by
    cases series <;> rfl
  refine ⟨⟨_, rfl, denotes_tagged known
    (.cons (denotes_numbers _) (.cons (denotes_numbers _) .nil)) ?_⟩, series.same_refl⟩
  rintro ⟨source, list, arguments⟩ read terms fragments
  match arguments, fragments with
  | [⟨one, _⟩, ⟨two, _⟩], rfl =>
      obtain ⟨firstTerm, sameTerms⟩ := List.cons.inj terms
      have timesRead := numbers_of_term (read ⟨one, _⟩ (by simp)) timesShort firstTerm rfl
      have valuesRead := numbers_of_term (read ⟨two, _⟩ (by simp)) valuesShort
        (List.cons.inj sameTerms).1 rfl
      simp only [Rule.series, timesRead, valuesRead, Outcome.ok_bind, own]
      rfl

end Series

end Analog
