import Analog.Proofs.FormedNodes
import Analog.Proofs.WrittenSequences

/-!
# Everything that is read can be written and read back

Every rule keeps this: if the arguments of a list can be written and read back, so can what the
rule makes of them. Numbers have no longer scale than is read, names are symbols of the grammar,
and repeated operands, repeated sites and repeated modulations are taken care of when they are
read, so a second reading finds nothing left to change. A text that is read as a node therefore
has a second text, which the writer makes of the node and which is read as the same node.
-/

set_option autoImplicit false

namespace Analog

def Outcome.Yields {α : Type} (outcome : Outcome α) (good : α → Prop) : Prop :=
  ∀ value, outcome = .ok value → good value

namespace Outcome

variable {α β : Type} {outcome : Outcome α} {good : α → Prop} {better : β → Prop}

theorem yields_pure {value : α} (isGood : good value) : (pure value : Outcome α).Yields good := by
  intro result same
  rwa [← (pure_ok_iff value result).1 same]

theorem Yields.bind {next : α → Outcome β} (first : outcome.Yields good)
    (then_ : ∀ value, good value → (next value).Yields better) : (outcome >>= next).Yields better := by
  intro result ran
  obtain ⟨value, valueOk, nextOk⟩ := (bind_ok_iff _ _ _).1 ran
  exact then_ value (first value valueOk) result nextOk

theorem yields_mapM {items : List β} {work : β → Outcome α}
    (each : ∀ item ∈ items, (work item).Yields good) :
    (items.mapM work).Yields fun results => ∀ result ∈ results, good result := by
  intro results ran result member
  obtain ⟨item, itemMember, worked⟩ := source_of_mem ((mapM_ok_iff _ _ _).1 ran) member
  exact each item itemMember result worked

theorem yields_foldlM (good : α → Prop) {items : List β} {step : α → β → Outcome α} {start : α}
    (startGood : good start)
    (keeps : ∀ value, good value → ∀ item ∈ items, (step value item).Yields good) :
    (items.foldlM step start).Yields good := by
  induction items generalizing start with
  | nil => exact yields_pure startGood
  | cons item rest ih =>
      rw [List.foldlM_cons]
      exact (keeps start startGood item (by simp)).bind fun next nextGood =>
        ih nextGood fun value isGood other member => keeps value isGood other (by simp [member])

end Outcome

open Tagged Outcome

/-- What a term stands for can be written and read back, as far as it is a node; names are symbols
of the grammar. -/
inductive Fragment.Restored : Fragment → Prop
  | node {value : Node} (restored : value.Restored) : Restored (.node value)
  | symbol {name : String} (isWord : IsWord name.toList) : Restored (.symbol name)
  | array {items : List Fragment} (each : ∀ item ∈ items, Restored item) : Restored (.array items)
  | entry (name : String) {value : Fragment} (restored : Restored value) :
      Restored (.entry name value)
  | location {value : Location} (restored : value.Restored) : Restored (.location value)
  | drive {value : Drive} (restored : value.Restored) : Restored (.drive value)
  | site {value : Site} (restored : value.Restored) : Restored (.site value)

theorem Node.Restored.scalar {value : Scalar} (restored : (Node.scalar value).Restored) :
    value.Restored := by
  obtain ⟨⟨_, written, denotes⟩, _⟩ := restored
  cases written
  exact denotes

theorem Node.Restored.modulation {value : Modulation}
    (restored : (Node.modulation value).Restored) : value.Restored := by
  obtain ⟨⟨_, written, denotes⟩, _⟩ := restored
  cases written
  exact denotes

namespace Fragment.Restored

variable {fragment : Fragment} (restored : fragment.Restored)
include restored

theorem word {name : String} (isSymbol : fragment.symbol? = some name) : IsWord name.toList := by
  rw [(symbol_iff fragment name).1 isSymbol] at restored
  cases restored with
  | symbol isWord => exact isWord

theorem items {values : List Fragment} (isArray : fragment.array? = some values) :
    ∀ value ∈ values, value.Restored := by
  rw [(array_iff fragment values).1 isArray] at restored
  cases restored with
  | array each => exact each

theorem inner {found : String × Fragment} (isEntry : fragment.entry? = some found) :
    found.2.Restored := by
  rw [(entry_iff fragment found).1 isEntry] at restored
  cases restored with
  | entry _ restored => exact restored

theorem asLocation {value : Location} (isLocation : fragment.location? = some value) :
    value.Restored := by
  rw [(location_iff fragment value).1 isLocation] at restored
  cases restored with
  | location restored => exact restored

theorem asDrive {value : Drive} (isDrive : fragment.drive? = some value) : value.Restored := by
  rw [(drive_iff fragment value).1 isDrive] at restored
  cases restored with
  | drive restored => exact restored

theorem asSite {value : Site} (isSite : fragment.site? = some value) : value.Restored := by
  rw [(site_iff fragment value).1 isSite] at restored
  cases restored with
  | site restored => exact restored

theorem asNode {value : Node} (isNode : fragment = .node value) : value.Restored := by
  rw [isNode] at restored
  cases restored with
  | node restored => exact restored

theorem scalar {value : Scalar} (isScalar : fragment.scalar? = some value) : value.Restored :=
  (restored.asNode ((scalar_iff fragment value).1 isScalar)).scalar

theorem waveform {value : Waveform} (isWaveform : fragment.waveform? = some value) :
    value.Restored :=
  (restored.asNode ((waveform_iff fragment value).1 isWaveform)).written

theorem modulation {value : Modulation} (isModulation : fragment.modulation? = some value) :
    value.Restored :=
  (restored.asNode ((modulation_iff fragment value).1 isModulation)).modulation

theorem field {value : Field} (isField : fragment.field? = some value) :
    (Node.field value).Restored :=
  restored.asNode ((field_iff fragment value).1 isField)

theorem pulse {value : Pulse} (isPulse : fragment.pulse? = some value) :
    (Node.pulse value).Restored :=
  restored.asNode ((pulse_iff fragment value).1 isPulse)

theorem sequence {value : Sequence} (isSequence : fragment.sequence? = some value) :
    (Node.sequence value).Restored :=
  restored.asNode ((sequence_iff fragment value).1 isSequence)

theorem register {value : Register} (isRegister : fragment.register? = some value) :
    (Node.register value).Restored :=
  restored.asNode ((register_iff fragment value).1 isRegister)

end Fragment.Restored

section Arguments

variable {α β : Type} {call : Call} {argument : Argument} {what : String} {good : α → Prop}

def Tagged.Call.Restored (call : Call) : Prop :=
  ∀ argument ∈ call.arguments, argument.value.Restored

theorem complain_yields {source : Text.Source} {term : LocatedTerm} {complaint : String} :
    (Tagged.complain source term complaint : Outcome α).Yields good := by
  intro value taken
  cases taken

theorem yields_one {body : Argument → Outcome α} (each : call.Restored)
    (fits : ∀ one, one.value.Restored → (body one).Yields good) :
    (match call.arguments with
      | [one] => body one
      | _ => call.wrongCount 1).Yields good := by
  split
  · rename_i one same
    exact fits one (each one (by simp [same]))
  · exact complain_yields

theorem yields_two {body : Argument → Argument → Outcome α} (each : call.Restored)
    (fits : ∀ one two, one.value.Restored → two.value.Restored → (body one two).Yields good) :
    (match call.arguments with
      | [one, two] => body one two
      | _ => call.wrongCount 2).Yields good := by
  split
  · rename_i one two same
    exact fits one two (each one (by simp [same])) (each two (by simp [same]))
  · exact complain_yields

theorem yields_three {body : Argument → Argument → Argument → Outcome α} (each : call.Restored)
    (fits : ∀ one two three, one.value.Restored → two.value.Restored → three.value.Restored →
      (body one two three).Yields good) :
    (match call.arguments with
      | [one, two, three] => body one two three
      | _ => call.wrongCount 3).Yields good := by
  split
  · rename_i one two three same
    exact fits one two three (each one (by simp [same])) (each two (by simp [same]))
      (each three (by simp [same]))
  · exact complain_yields

theorem need_yields {sort : Fragment → Option α}
    (fits : ∀ value, sort argument.value = some value → good value) :
    (call.need what sort argument).Yields good := fun value taken =>
  fits value ((Call.need_ok_iff what sort value).1 taken)

theorem needs_yield {sort : Fragment → Option α}
    (fits : ∀ argument ∈ call.arguments, ∀ value, sort argument.value = some value → good value) :
    (call.arguments.mapM (call.need what sort)).Yields fun values => ∀ value ∈ values, good value :=
  yields_mapM fun argument member => need_yields (fits argument member)

theorem needs_yield_some {sort : Fragment → Option α} (notEmpty : call.arguments ≠ [])
    (fits : ∀ argument ∈ call.arguments, ∀ value, sort argument.value = some value → good value) :
    (call.arguments.mapM (call.need what sort)).Yields fun values =>
      values ≠ [] ∧ ∀ value ∈ values, good value := by
  intro values taken
  have sameLength := ((mapM_ok_iff _ _ _).1 taken).length_eq
  refine ⟨?_, needs_yield fits values taken⟩
  rintro rfl
  exact notEmpty (List.length_eq_zero_iff.1 sameLength)

theorem rely_yields {sort : Fragment → Option α}
    (fits : ∀ value, sort argument.value = some value → good value) :
    (Call.rely sort argument).Yields good := fun value taken =>
  fits value ((Call.rely_ok_iff sort value).1 taken)

theorem word_yields {ofName? : String → Option α} {next : α → Outcome β} {better : β → Prop}
    (fits : ∀ value, (next value).Yields better) :
    (call.word what ofName? argument >>= next).Yields better :=
  Yields.bind (fun _ _ => trivial : (call.word what ofName? argument).Yields fun _ => True)
    fun value _ => fits value

theorem number_yields : (call.number argument).Yields fun value =>
    value.scale ≤ Decimal.scaleLimit := by
  intro value taken
  obtain ⟨_, _, read⟩ := (Call.number_ok_iff value).1 taken
  exact Decimal.of_text_scale read

theorem numbers_yield : (call.numbers argument).Yields fun values =>
    ∀ value ∈ values, value.scale ≤ Decimal.scaleLimit :=
  Yields.bind (fun _ _ => trivial : (call.items "array" argument).Yields fun _ => True)
    fun _ _ => yields_mapM fun _ _ => number_yields

theorem items_yield (restored : argument.value.Restored) : (call.items what argument).Yields
    fun items => ∀ item ∈ items, item.value.Restored := by
  intro items taken item member
  obtain ⟨values, isArray, inValues⟩ := Call.value_of_item taken member
  exact restored.items ((Fragment.array_iff _ values).2 isArray) item.value inValues

theorem bound_yields (restored : argument.value.Restored) :
    (call.bound argument).Yields fun bound => ∀ scalar ∈ bound, scalar.Restored := by
  intro bound taken
  rcases (Call.bound_ok_iff bound).1 taken with ⟨_, rfl⟩ | ⟨value, isScalar, rfl⟩
  · simp
  · simpa using restored.scalar ((Fragment.scalar_iff _ _).2 isScalar)

theorem interval_yields {start stop : Argument} (startRestored : start.value.Restored)
    (stopRestored : stop.value.Restored) : (call.interval start stop).Yields Interval.Restored :=
  (bound_yields startRestored).bind fun _ startGood =>
    (bound_yields stopRestored).bind fun _ stopGood => yields_pure ⟨startGood, stopGood⟩

end Arguments

namespace Scalar

theorem unique_ne_nil {operands : List Scalar} (notEmpty : operands ≠ []) :
    unique operands ≠ [] := by
  obtain ⟨operand, member⟩ := List.exists_mem_of_ne_nil _ notEmpty
  obtain ⟨kept, keptMember, _⟩ := exists_same_of_mem operands member
  exact List.ne_nil_of_mem keptMember

theorem minimum_restored {operands : List Scalar} (notEmpty : operands ≠ [])
    (each : ∀ operand ∈ operands, operand.Restored) : (minimum operands).Restored :=
  restored_min (unique_ne_nil notEmpty) (fun operand member => each operand (mem_of_mem_unique member))
    (unique_distinct operands)

theorem maximum_restored {operands : List Scalar} (notEmpty : operands ≠ [])
    (each : ∀ operand ∈ operands, operand.Restored) : (maximum operands).Restored :=
  restored_max (unique_ne_nil notEmpty) (fun operand member => each operand (mem_of_mem_unique member))
    (unique_distinct operands)

end Scalar

namespace Modulation

theorem of_locations_restored {locations : List Location}
    (each : ∀ location ∈ locations, location.Restored) : (ofLocations locations).Restored := by
  rw [of_locations_eq]
  refine restored_scaled (place_all_ordered (Location.near_of_restored each))
    (place_all_each (fun first second firstGood secondGood => ?_) each)
  exact ⟨firstGood.site, Scalar.restored_add firstGood.weight secondGood.weight⟩

end Modulation

theorem Field.of_drives_restored {drives : List Drive} (each : ∀ drive ∈ drives, drive.Restored) :
    (Node.field (ofDrives drives)).Restored :=
  restored (of_drives_each (fun _ _ first second _ =>
    ⟨first.target, Waveform.restored_add first.waveform second.waveform⟩) each)
    (of_drives_apart drives)

/-- The times of a series that is made of two lists are those given, and so are its values. -/
theorem Series.made_restored {target : Target} {timeList valueList : List Decimal} {series : Series}
    (made : ofLists target timeList valueList = .ok series)
    (timesShort : ∀ time ∈ timeList, time.scale ≤ Decimal.scaleLimit)
    (valuesShort : ∀ value ∈ valueList, value.scale ≤ Decimal.scaleLimit) :
    (Node.series series).Restored := by
  have own := of_own_lists made
  obtain ⟨points, fromLists, rfl⟩ := (of_lists_ok_iff target timeList valueList series).1 made
  obtain ⟨paired, rfl⟩ := (Breakpoints.of_lists_ok_iff _ _ _).1 fromLists
  obtain ⟨sameTimes, sameValues⟩ := Breakpoints.lists_of_zip paired.sameLength
  cases target with
  | linear =>
      refine restored own (fun time member => timesShort time ?_) fun value member =>
        valuesShort value ?_
      · exact sameTimes ▸ member
      · exact sameValues ▸ member
  | constant =>
      refine restored own (fun time member => timesShort time ?_) fun value member =>
        valuesShort value ?_
      · exact sameTimes ▸ (Breakpoints.times_flat_tail _ ▸ member)
      · exact sameValues ▸ Breakpoints.mem_values_of_flat_tail member

section Rules

variable {call : Call}

theorem uniform_restored : (Rule.uniform call).Yields Fragment.Restored := by
  unfold Rule.uniform
  split
  · exact yields_pure (.node Modulation.restored_uniform.node)
  · exact complain_yields

theorem fill_value_yields {argument : Argument} (restored : argument.value.Restored) :
    (Rule.fillValue call argument).Yields fun fill => ∀ scalar ∈ fill.scalars, scalar.Restored := by
  unfold Rule.fillValue
  split
  · exact word_yields fun side => yields_pure (by simp [FillValue.scalars])
  · exact (need_yields fun _ => restored.scalar).bind fun _ good =>
      yields_pure (by simpa [FillValue.scalars] using good)

theorem add_field_yields {fields : PerField Field} {argument : Argument}
    (restored : argument.value.Restored)
    (good : ∀ name field, fields.get? name = some field → (Node.field field).Restored) :
    (Rule.addField call fields argument).Yields fun made =>
      ∀ name field, made.get? name = some field → (Node.field field).Restored := by
  refine Yields.bind (need_yields fun _ => restored.inner) fun found innerRestored => ?_
  obtain ⟨name, value⟩ := found
  dsimp only
  split
  · exact complain_yields
  · exact complain_yields
  · rename_i key field _ isField
    split_ifs
    · exact complain_yields
    · refine yields_pure fun other otherField found => ?_
      rw [PerField.get_insert] at found
      split_ifs at found
      · cases found
        exact innerRestored.field isField
      · exact good other otherField found

theorem add_pulse_yields {pulses : PerCoupling Pulse} {argument : Argument}
    (restored : argument.value.Restored)
    (good : ∀ coupling pulse, pulses.get? coupling = some pulse → (Node.pulse pulse).Restored) :
    (Rule.addPulse call pulses argument).Yields fun made =>
      ∀ coupling pulse, made.get? coupling = some pulse → (Node.pulse pulse).Restored := by
  refine Yields.bind (need_yields fun _ => restored.inner) fun found innerRestored => ?_
  obtain ⟨name, value⟩ := found
  dsimp only
  split
  · exact complain_yields
  · exact complain_yields
  · rename_i key pulse _ isPulse
    split_ifs
    · exact complain_yields
    · refine yields_pure fun other otherPulse found => ?_
      rw [PerCoupling.get_insert] at found
      split_ifs at found
      · cases found
        exact innerRestored.pulse isPulse
      · exact good other otherPulse found

variable (each : call.Restored)
include each

theorem literal_restored : (Rule.literal call).Yields Fragment.Restored :=
  yields_one each fun _ _ => number_yields.bind fun _ short =>
    yields_pure (.node (Scalar.restored_literal short).node)

theorem variable_restored : (Rule.variableRule call).Yields Fragment.Restored :=
  yields_one each fun _ name => (need_yields fun _ => name.word).bind fun _ isWord =>
    yields_pure (.node (Scalar.restored_variable isWord).node)

theorem assigned_restored : (Rule.assigned call).Yields Fragment.Restored :=
  yields_two each fun _ _ name _ => (need_yields fun _ => name.word).bind fun _ isWord =>
    number_yields.bind fun _ short =>
      yields_pure (.node (Scalar.restored_assigned isWord short).node)

theorem negative_restored : (Rule.negative call).Yields Fragment.Restored :=
  yields_one each fun _ operand => (need_yields fun _ => operand.scalar).bind fun _ restored =>
    yields_pure (.node (Scalar.restored_negative restored).node)

theorem binary_restored {build : Scalar → Scalar → Scalar}
    (keeps : ∀ {left right : Scalar}, left.Restored → right.Restored →
      (build left right).Restored) : (Rule.binary build call).Yields Fragment.Restored :=
  yields_two each fun _ _ left right => (need_yields fun _ => left.scalar).bind fun _ one =>
    (need_yields fun _ => right.scalar).bind fun _ two => yields_pure (.node (keeps one two).node)

theorem several_restored {build : List Scalar → Scalar}
    (keeps : ∀ {operands : List Scalar}, operands ≠ [] → (∀ operand ∈ operands, operand.Restored) →
      (build operands).Restored) : (Rule.several build call).Yields Fragment.Restored := by
  unfold Rule.several
  split
  · exact complain_yields
  · rename_i notEmpty
    exact (needs_yield_some notEmpty fun argument member _ => (each argument member).scalar).bind
      fun _ good => yields_pure (.node (keeps good.1 good.2).node)

theorem scalar_slice_restored : (Rule.scalarSlice call).Yields Fragment.Restored :=
  yields_three each fun _ _ _ extent start stop =>
    (need_yields fun _ => extent.scalar).bind fun _ restored =>
      (interval_yields start stop).bind fun _ bounds =>
        yields_pure (.node (Scalar.restored_slice restored bounds.1 bounds.2).node)

theorem constant_restored : (Rule.constant call).Yields Fragment.Restored :=
  yields_two each fun _ _ value duration =>
    (need_yields fun _ => value.scalar).bind fun _ valueGood =>
      (need_yields fun _ => duration.scalar).bind fun _ durationGood =>
        yields_pure (.node (Waveform.restored_constant valueGood durationGood).node)

theorem ramp_restored : (Rule.ramp call).Yields Fragment.Restored :=
  yields_three each fun _ _ _ start stop duration =>
    (need_yields fun _ => start.scalar).bind fun _ startGood =>
      (need_yields fun _ => stop.scalar).bind fun _ stopGood =>
        (need_yields fun _ => duration.scalar).bind fun _ durationGood =>
          yields_pure (.node (Waveform.restored_ramp startGood stopGood durationGood).node)

theorem poly_restored : (Rule.poly call).Yields Fragment.Restored :=
  yields_two each fun _ _ restored duration =>
    Yields.bind (items_yield restored) fun _ itemsGood =>
      (yields_mapM fun item member => need_yields fun _ => (itemsGood item member).scalar).bind
        fun _ scalarsGood => (rely_yields fun _ => duration.scalar).bind fun _ durationGood =>
          yields_pure (.node (Waveform.restored_poly scalarsGood durationGood).node)

theorem negative_waveform_restored : (Rule.negativeWaveform call).Yields Fragment.Restored :=
  yields_one each fun _ inner => (need_yields fun _ => inner.waveform).bind fun _ restored =>
    yields_pure (.node (Waveform.restored_negative restored).node)

theorem add_waveform_restored : (Rule.addWaveform call).Yields Fragment.Restored :=
  yields_two each fun _ _ left right => (need_yields fun _ => left.waveform).bind fun _ one =>
    (need_yields fun _ => right.waveform).bind fun _ two =>
      yields_pure (.node (Waveform.restored_add one two).node)

theorem scale_waveform_restored : (Rule.scaleWaveform call).Yields Fragment.Restored :=
  yields_two each fun _ _ factor inner => (need_yields fun _ => factor.scalar).bind fun _ one =>
    (rely_yields fun _ => inner.waveform).bind fun _ two =>
      yields_pure (.node (Waveform.restored_scale one two).node)

theorem slice_waveform_restored : (Rule.sliceWaveform call).Yields Fragment.Restored :=
  yields_three each fun _ _ _ inner start stop =>
    (need_yields fun _ => inner.waveform).bind fun _ restored =>
      (interval_yields start stop).bind fun _ bounds =>
        yields_pure (.node (Waveform.restored_slice restored bounds).node)

theorem append_waveform_restored : (Rule.appendWaveform call).Yields Fragment.Restored := by
  unfold Rule.appendWaveform
  split
  · exact complain_yields
  · rename_i notEmpty
    exact (needs_yield_some notEmpty fun argument member _ => (each argument member).waveform).bind
      fun _ good => yields_pure (.node (Waveform.restored_append good.1 good.2).node)

theorem record_waveform_restored : (Rule.recordWaveform call).Yields Fragment.Restored :=
  yields_three each fun _ _ _ name inner _ =>
    (need_yields fun _ => name.word).bind fun _ isWord =>
      (need_yields fun _ => inner.waveform).bind fun _ restored =>
        word_yields fun side => yields_pure (.node (Waveform.restored_record side isWord restored).node)

theorem sample_waveform_restored : (Rule.sampleWaveform call).Yields Fragment.Restored :=
  yields_three each fun _ _ _ inner step _ =>
    (need_yields fun _ => inner.waveform).bind fun _ restored =>
      (need_yields fun _ => step.scalar).bind fun _ stepGood =>
        word_yields fun kind => yields_pure (.node (Waveform.restored_sample kind restored stepGood).node)

theorem smooth_waveform_restored : (Rule.smoothWaveform call).Yields Fragment.Restored :=
  yields_three each fun _ _ _ inner radius _ =>
    (need_yields fun _ => inner.waveform).bind fun _ restored =>
      (need_yields fun _ => radius.scalar).bind fun _ radiusGood =>
        word_yields fun kind =>
          yields_pure (.node (Waveform.restored_smooth kind restored radiusGood).node)

theorem aligned_waveform_restored : (Rule.alignedWaveform call).Yields Fragment.Restored :=
  yields_three each fun _ _ _ inner _ fill =>
    (need_yields fun _ => inner.waveform).bind fun _ restored =>
      word_yields fun side => (fill_value_yields fill).bind fun _ fillGood =>
        yields_pure (.node (Waveform.restored_aligned side restored fillGood).node)

theorem vector_restored : (Rule.vector call).Yields Fragment.Restored :=
  yields_one each fun _ name => (need_yields fun _ => name.word).bind fun _ isWord =>
    yields_pure (.node (Modulation.restored_vector isWord).node)

theorem assigned_vector_restored : (Rule.assignedVector call).Yields Fragment.Restored :=
  yields_two each fun _ _ name _ => (need_yields fun _ => name.word).bind fun _ isWord =>
    numbers_yield.bind fun _ short =>
      yields_pure (.node (Modulation.restored_assigned_vector isWord short).node)

theorem scaled_locations_restored : (Rule.scaledLocations call).Yields Fragment.Restored :=
  (needs_yield fun argument member _ => (each argument member).asLocation).bind fun _ good =>
    yields_pure (.node (Modulation.of_locations_restored good).node)

theorem location_restored : (Rule.location call).Yields Fragment.Restored :=
  yields_two each fun _ _ _ weight =>
    Yields.bind (fun _ _ => trivial : Yields _ fun _ => True) fun text _ => by
      split
      · exact complain_yields
      · rename_i number found
        have small : number ≤ Rule.siteLimit := by
          simpa using (Option.filter_eq_some_iff.1 found).2
        have kept : (UInt64.ofNat number).toNat ≤ Rule.siteLimit := by
          rw [UInt64.toNat_ofNat']
          exact (Nat.mod_le _ _).trans small
        exact (need_yields fun _ => weight.scalar).bind fun _ weightGood =>
          yields_pure (.location ⟨kept, weightGood⟩)

theorem drive_restored : (Rule.drive call).Yields Fragment.Restored :=
  yields_two each fun _ _ target waveform =>
    (need_yields fun _ => target.modulation).bind fun _ targetGood =>
      (need_yields fun _ => waveform.waveform).bind fun _ waveformGood =>
        yields_pure (.drive ⟨targetGood, waveformGood⟩)

theorem field_restored : (Rule.field call).Yields Fragment.Restored :=
  (needs_yield fun argument member _ => (each argument member).asDrive).bind fun _ good =>
    yields_pure (.node (Field.of_drives_restored good))

theorem entry_restored (name : String) : (Rule.entry name call).Yields Fragment.Restored :=
  yields_one each fun _ restored => yields_pure (.entry name restored)

theorem pulse_restored : (Rule.pulse call).Yields Fragment.Restored := by
  refine (yields_foldlM (fun fields : PerField Field => ∀ name field,
    fields.get? name = some field → (Node.field field).Restored) ?_ fun fields good argument member =>
      add_field_yields (each argument member) good).bind fun fields good => yields_pure ?_
  · simp
  · refine .node (Pulse.restored_plain fun entry member => ?_)
    exact good entry.1 entry.2 ((fields.mem_entries_iff entry.1 entry.2).1 member)

theorem append_pulse_restored : (Rule.appendPulse call).Yields Fragment.Restored :=
  (needs_yield fun argument member _ => (each argument member).pulse).bind fun _ good =>
    yields_pure (.node (Pulse.restored_append good))

theorem slice_pulse_restored : (Rule.slicePulse call).Yields Fragment.Restored :=
  yields_three each fun _ _ _ inner start stop =>
    (need_yields fun _ => inner.pulse).bind fun _ restored =>
      (interval_yields start stop).bind fun _ bounds =>
        yields_pure (.node (Pulse.restored_slice restored bounds))

theorem named_pulse_restored : (Rule.namedPulse call).Yields Fragment.Restored :=
  yields_two each fun _ _ name inner => (need_yields fun _ => name.word).bind fun _ isWord =>
    (rely_yields fun _ => inner.pulse).bind fun _ restored =>
      yields_pure (.node (Pulse.restored_named isWord restored))

theorem sequence_restored : (Rule.sequence call).Yields Fragment.Restored := by
  refine (yields_foldlM (fun pulses : PerCoupling Pulse => ∀ coupling pulse,
    pulses.get? coupling = some pulse → (Node.pulse pulse).Restored) ?_
      fun pulses good argument member => add_pulse_yields (each argument member) good).bind
    fun pulses good => yields_pure ?_
  · simp
  · refine .node (Sequence.restored_plain fun entry member => ?_)
    exact good entry.1 entry.2 ((pulses.mem_entries_iff entry.1 entry.2).1 member)

theorem append_sequence_restored : (Rule.appendSequence call).Yields Fragment.Restored :=
  (needs_yield fun argument member _ => (each argument member).sequence).bind fun _ good =>
    yields_pure (.node (Sequence.restored_append good))

theorem slice_sequence_restored : (Rule.sliceSequence call).Yields Fragment.Restored :=
  yields_three each fun _ _ _ inner start stop =>
    (need_yields fun _ => inner.sequence).bind fun _ restored =>
      (interval_yields start stop).bind fun _ bounds =>
        yields_pure (.node (Sequence.restored_slice restored bounds))

theorem named_sequence_restored : (Rule.namedSequence call).Yields Fragment.Restored :=
  yields_two each fun _ _ name inner => (need_yields fun _ => name.word).bind fun _ isWord =>
    (rely_yields fun _ => inner.sequence).bind fun _ restored =>
      yields_pure (.node (Sequence.restored_named isWord restored))

theorem circuit_restored : (Rule.circuit call).Yields Fragment.Restored :=
  yields_two each fun _ _ register sequence =>
    (need_yields fun _ => register.register).bind fun _ registerGood =>
      (need_yields fun _ => sequence.sequence).bind fun _ sequenceGood =>
        yields_pure (.node (Circuit.restored registerGood sequenceGood))

theorem register_restored : (Rule.register call).Yields Fragment.Restored :=
  (needs_yield fun argument member _ => (each argument member).asSite).bind fun _ good =>
    yields_pure (.node (Register.restored good))

theorem site_restored (filled : Bool) : (Rule.site filled call).Yields Fragment.Restored :=
  yields_two each fun _ _ _ _ => number_yields.bind fun _ xShort =>
    number_yields.bind fun _ yShort => yields_pure (.site ⟨xShort, yShort⟩)

theorem series_restored (target : Target) :
    (Rule.series (Series.ofLists target) call).Yields Fragment.Restored :=
  yields_two each fun _ _ _ _ => numbers_yield.bind fun timeList timesShort =>
    numbers_yield.bind fun valueList valuesShort => by
      split
      · rename_i series made
        exact yields_pure (.node (Series.made_restored made timesShort valuesShort))
      · exact complain_yields

end Rules

theorem rules_restored :
    ∀ entry ∈ rules, ∀ call : Call, call.Restored → (entry.2 call).Yields Fragment.Restored := by
  simp only [rules, List.forall_mem_cons]
  exact ⟨fun _ => literal_restored, fun _ => variable_restored, fun _ => assigned_restored,
    fun _ => negative_restored, fun _ each => binary_restored each Scalar.restored_add,
    fun _ each => binary_restored each Scalar.restored_mul,
    fun _ each => binary_restored each Scalar.restored_div,
    fun _ each => several_restored each Scalar.minimum_restored,
    fun _ each => several_restored each Scalar.maximum_restored,
    fun _ => scalar_slice_restored, fun _ => constant_restored, fun _ => ramp_restored,
    fun _ => poly_restored, fun _ => negative_waveform_restored, fun _ => add_waveform_restored,
    fun _ => scale_waveform_restored, fun _ => slice_waveform_restored,
    fun _ => append_waveform_restored, fun _ => record_waveform_restored,
    fun _ => sample_waveform_restored, fun _ => smooth_waveform_restored,
    fun _ => aligned_waveform_restored, fun _ _ => uniform_restored, fun _ => vector_restored,
    fun _ => assigned_vector_restored, fun _ => scaled_locations_restored,
    fun _ => location_restored, fun _ => drive_restored, fun _ => field_restored,
    fun _ => pulse_restored, fun _ => append_pulse_restored, fun _ => slice_pulse_restored,
    fun _ => named_pulse_restored, fun _ => sequence_restored, fun _ => append_sequence_restored,
    fun _ => slice_sequence_restored, fun _ => named_sequence_restored, fun _ => circuit_restored,
    fun _ => register_restored, fun _ each => site_restored each true,
    fun _ each => site_restored each false, fun _ each => series_restored each .linear,
    fun _ each => series_restored each .constant, by simp⟩

/-- What a term of symbols of the grammar stands for can be written and read back. -/
theorem read_restored {source : Text.Source} {term : LocatedTerm} (legible : term.term.Legible) :
    (readTerm source term).Yields Fragment.Restored := by
  induction term using LocatedTerm.parts_induction with
  | symbol span name => exact yields_pure (.symbol ((Term.legible_symbol_iff name).1 legible))
  | list span elements ih =>
      intro fragment read
      obtain ⟨head, tag, rule, arguments, rfl, _, _, known, each, made⟩ :=
        (read_list_ok_iff span elements fragment).1 read
      rw [LocatedTerm.term, LocatedTerm.terms_eq_map, Term.legible_list_iff] at legible
      have restored : Call.Restored ⟨source, .list span ((head :: arguments).map Argument.term),
          arguments⟩ := by
        intro argument member
        have isElement : argument.term ∈ (head :: arguments).map Argument.term :=
          List.mem_map_of_mem (List.mem_cons_of_mem _ member)
        exact ih _ isElement (legible _ (List.mem_map_of_mem isElement)) _ (each argument member)
      rcases rule_cases known with ⟨_, rfl⟩ | isRule
      · exact entry_restored restored tag fragment made
      · exact rules_restored _ isRule _ restored fragment made
  | array span elements ih =>
      intro fragment read
      obtain ⟨items, rfl, each, rfl⟩ := (read_array_ok_iff span elements fragment).1 read
      rw [LocatedTerm.term, LocatedTerm.terms_eq_map, Term.legible_array_iff] at legible
      refine .array fun value member => ?_
      obtain ⟨item, itemMember, rfl⟩ := List.mem_map.1 member
      have isElement := List.mem_map_of_mem (f := Argument.term) itemMember
      exact ih _ isElement (legible _ (List.mem_map_of_mem isElement)) _ (each item itemMember)

theorem read_text_of_denotes {term : Term} {fragment : Fragment} (denotes : Denotes term fragment)
    (name : String) : Tagged.read ⟨name, term.toText⟩ = .ok fragment := by
  obtain ⟨located, parsed, same⟩ := denotes.legible.parse_text name
  rw [Tagged.read, parsed]
  exact denotes.read _ located same

/-- A text that is read as a node can be written and read back: the node has a text of its own, and
this text is read as the very same node, whatever sort of node is asked for that it is of. -/
theorem Tagged.node_round_trip {source : Text.Source} {node : Node}
    (found : Tagged.read source = .ok (.node node)) :
    ∃ text back, node.code = .ok text ∧
      (∀ expected, Expected.admits expected (.node node) = true →
        readAs expected ⟨inlineName, text⟩ = .ok (.node back)) ∧
      node.same back = true ∧ back.code = .ok text ∧ back = node := by
  have restored : (Fragment.node node).Restored := by
    rw [Tagged.read] at found
    split at found
    · cases found
    · cases found
    · rename_i term parsed
      exact read_restored (LocatedTerm.parse_legible parsed) _ found
  obtain ⟨⟨term, written, denotes⟩, same⟩ := restored.asNode rfl
  have coded : node.code = .ok term.toText := by
    rw [Node.code, written]
    rfl
  refine ⟨term.toText, node, coded, fun expected admitted => ?_, same, coded, rfl⟩
  rw [readAs, read_text_of_denotes denotes, Outcome.ok_bind, if_pos admitted]
  rfl

/-- Locations out of order, one of them twice, with a repeated operand. -/
def tangledLocations : String :=
  "(scaled_locations (location 1 (literal 1e1)) (location 0 (min (variable w) (variable w))) " ++
    "(location 1 (literal .50)))"

def orderedLocations : String :=
  "(scaled_locations (location 0 (min (variable w))) " ++
    "(location 1 (add (literal 10) (literal 0.5))))"

theorem Tagged.tangled_locations_round_trip :
    ∃ node : Node, Tagged.read ⟨"given", tangledLocations⟩ = .ok (.node node) ∧
      node.code = .ok orderedLocations ∧
      readAs .modulation ⟨inlineName, orderedLocations⟩ = .ok (.node node) := by
  have found : ((Tagged.read ⟨"given", tangledLocations⟩).toOption.bind Fragment.modulation?).any
      (fun modulation => decide ((Node.modulation modulation).code = .ok orderedLocations)) =
      true := by
    decide +kernel
  obtain ⟨modulation, isModulation, coded⟩ := (Option.any_eq_true _ _).1 found
  have coded : (Node.modulation modulation).code = .ok orderedLocations := of_decide_eq_true coded
  have read : Tagged.read ⟨"given", tangledLocations⟩ = .ok (.node (.modulation modulation)) := by
    cases outcome : Tagged.read ⟨"given", tangledLocations⟩ with
    | ok fragment =>
        rw [outcome] at isModulation
        exact congrArg Except.ok ((Fragment.modulation_iff fragment modulation).1 isModulation)
    | error complaint => rw [outcome] at isModulation; cases isModulation
  obtain ⟨text, back, codedAgain, again, _, _, rfl⟩ := Tagged.node_round_trip read
  obtain rfl : orderedLocations = text := Except.ok.inj (coded.symm.trans codedAgain)
  exact ⟨_, read, coded, again .modulation rfl⟩

end Analog
