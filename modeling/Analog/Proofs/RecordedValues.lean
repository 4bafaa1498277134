import Analog.Proofs.ClosedPrograms

/-!
# Recorded values

Bindings that are extended keep every value and every meaning that there is: what was
evaluated before a record was bound is evaluated to the same after all of them are. So the
scan of records, which evaluates each record under the bindings reached so far, ends with
bindings that are consistent: every record of the sequence stands for the value that it has
under the bindings of all records together.
-/

set_option autoImplicit false

namespace Analog

def NameMap.Within {α : Type} (smaller larger : NameMap α) : Prop :=
  ∀ name value, smaller.find? name = some value → larger.find? name = some value

namespace Outcome

variable {α β γ δ : Type}

/-- Where the first outcome is a success, the second is one with a related result. -/
def Leads (relation : α → β → Prop) (first : Outcome α) (second : Outcome β) : Prop :=
  ∀ value, first = .ok value → ∃ result, second = .ok result ∧ relation value result

theorem Leads.ok {relation : α → β → Prop} {value : α} {result : β}
    (related : relation value result) : Leads relation (.ok value) (.ok result) := by
  rintro _ ⟨⟩
  exact ⟨result, rfl, related⟩

theorem Leads.of_imp {first second : Outcome α}
    (keeps : ∀ value, first = .ok value → second = .ok value) : Leads Eq first second :=
  fun value found => ⟨value, keeps value found, rfl⟩

theorem Leads.bind {relation : α → β → Prop} {next : γ → δ → Prop} {first : Outcome α}
    {second : Outcome β} {work : α → Outcome γ} {other : β → Outcome δ}
    (leads : Leads relation first second)
    (works : ∀ value result, relation value result → Leads next (work value) (other result)) :
    Leads next (first >>= work) (second >>= other) := by
  intro final finalOk
  obtain ⟨value, valueOk, rest⟩ := (bind_ok_iff _ _ _).1 finalOk
  obtain ⟨result, resultOk, related⟩ := leads value valueOk
  obtain ⟨last, lastOk, lastRelated⟩ := works value result related final rest
  exact ⟨last, (bind_ok_iff _ _ _).2 ⟨result, resultOk, lastOk⟩, lastRelated⟩

end Outcome

open Outcome

variable {given extended : ScalarBindings}

namespace Scalar

theorem Chosen.extend {before : Decimal → Decimal → Prop} {operands : List Scalar}
    {value : Decimal}
    (each : ∀ operand ∈ operands, ∀ number, operand.eval given = .ok number →
      operand.eval extended = .ok number)
    (chosen : Chosen before given operands value) : Chosen before extended operands value := by
  constructor
  · intro operand member
    obtain ⟨number, numberOk, least⟩ := chosen.all operand member
    exact ⟨number, each operand member number numberOk, least⟩
  · obtain ⟨operand, member, operandOk⟩ := chosen.one
    exact ⟨operand, member, each operand member value operandOk⟩

theorem eval_bound_extend {bound : Option Scalar} {value : Option Decimal}
    (each : ∀ found ∈ bound, ∀ number, found.eval given = .ok number →
      found.eval extended = .ok number)
    (evaluates : evalBound given bound = .ok value) : evalBound extended bound = .ok value := by
  rw [eval_bound_ok_iff] at evaluates ⊢
  cases evaluates with
  | none => exact .none
  | some found => exact .some (each _ rfl _ found)

theorem eval_extend (within : given.Within extended) (scalar : Scalar) (value : Decimal)
    (evaluates : scalar.eval given = .ok value) : scalar.eval extended = .ok value := by
  induction scalar using Scalar.parts_induction generalizing value with
  | literal number => exact evaluates
  | named name =>
      rw [eval_variable_ok_iff] at evaluates ⊢
      exact within name value evaluates
  | assigned name number => exact evaluates
  | negative operand ih =>
      rw [eval_negative_ok_iff] at evaluates ⊢
      obtain ⟨inner, innerOk, same⟩ := evaluates
      exact ⟨inner, ih inner innerOk, same⟩
  | add left right leftIh rightIh =>
      rw [eval_add_ok_iff] at evaluates ⊢
      obtain ⟨first, second, firstOk, secondOk, same⟩ := evaluates
      exact ⟨first, second, leftIh first firstOk, rightIh second secondOk, same⟩
  | mul left right leftIh rightIh =>
      rw [eval_mul_ok_iff] at evaluates ⊢
      obtain ⟨first, second, firstOk, secondOk, same⟩ := evaluates
      exact ⟨first, second, leftIh first firstOk, rightIh second secondOk, same⟩
  | div left right leftIh rightIh =>
      rw [eval_div_ok_iff] at evaluates ⊢
      obtain ⟨first, second, firstOk, secondOk, divided⟩ := evaluates
      exact ⟨first, second, leftIh first firstOk, rightIh second secondOk, divided⟩
  | min operands ih =>
      rw [eval_min_ok_iff] at evaluates ⊢
      exact evaluates.extend ih
  | max operands ih =>
      rw [eval_max_ok_iff] at evaluates ⊢
      exact evaluates.extend ih
  | slice extent start stop extentIh startIh stopIh =>
      rw [eval_slice_ok_iff] at evaluates ⊢
      obtain ⟨extentValue, startValue, stopValue, extentOk, startOk, stopOk, length⟩ := evaluates
      exact ⟨extentValue, startValue, stopValue, extentIh extentValue extentOk,
        eval_bound_extend startIh startOk, eval_bound_extend stopIh stopOk, length⟩

theorem eval_all_extend (within : given.Within extended) {operands : List Scalar}
    {values : List Decimal} (evaluate : evalAll given operands = .ok values) :
    evalAll extended operands = .ok values := by
  rw [eval_all_ok_iff] at evaluate ⊢
  exact evaluate.imp fun operand value => operand.eval_extend within value

end Scalar

namespace Waveform

open Signal

theorem leaf_duration_extend (within : given.Within extended) {duration : Scalar}
    {value : Decimal} (lasts : leafDuration given duration = .ok value) :
    leafDuration extended duration = .ok value := by
  rw [leaf_duration_ok_iff] at lasts ⊢
  exact ⟨duration.eval_extend within value lasts.1, lasts.2⟩

theorem slice_bounds_extend (within : given.Within extended) {subject : Unit → String}
    {interval : Interval} {extent : Decimal} {bounds : Decimal × Decimal}
    (found : sliceBounds given subject interval extent = .ok bounds) :
    sliceBounds extended subject interval extent = .ok bounds := by
  obtain ⟨lower, upper⟩ := bounds
  rw [slice_bounds_ok_iff] at found ⊢
  obtain ⟨start, stop, startOk, stopOk, rest⟩ := found
  exact ⟨start, stop, Scalar.eval_bound_extend (fun bound _ => bound.eval_extend within) startOk,
    Scalar.eval_bound_extend (fun bound _ => bound.eval_extend within) stopOk, rest⟩

/-- A leaf keeps its duration, and the values that its shape keeps. -/
theorem leaf_leads (within : given.Within extended) {time : Scalar}
    {shape shape' : Decimal → Decimal → Outcome Decimal}
    (keeps : ∀ length moment value, shape length moment = .ok value →
      shape' length moment = .ok value) :
    Leads Refines
      (do
        let length ← leafDuration given time
        return Signal.within length (shape length))
      (do
        let length ← leafDuration extended time
        return Signal.within length (shape' length)) := by
  refine (Leads.of_imp fun _ => leaf_duration_extend within).bind fun length _ same => ?_
  subst same
  exact .ok (.of_inside fun moment _ _ => keeps length moment)

variable [Natives]

theorem signals_leads {parts : List Waveform}
    (each : ∀ part ∈ parts, Leads Refines (part.signal given) (part.signal extended)) :
    Leads (List.Forall₂ Refines) (signals given parts) (signals extended parts) := by
  induction parts with
  | nil => exact .ok .nil
  | cons part rest ih =>
      refine (each part (by simp)).bind fun _ _ refines => ?_
      exact (ih fun other member => each other (by simp [member])).bind fun _ _ others =>
        .ok (.cons refines others)

/-- A waveform keeps its duration and all its values when bindings are extended. -/
theorem signal_extend (within : given.Within extended) (waveform : Waveform) :
    Leads Refines (waveform.signal given) (waveform.signal extended) := by
  have values := fun scalar : Scalar => scalar.eval_extend within
  induction waveform using Waveform.parts_induction with
  | constant value duration => exact leaf_leads within fun _ _ => values value
  | ramp start stop duration =>
      refine leaf_leads within fun length moment value found => ?_
      obtain ⟨first, firstOk, rest⟩ := (bind_ok_iff _ _ _).1 found
      obtain ⟨last, lastOk, line⟩ := (bind_ok_iff _ _ _).1 rest
      rw [values start first firstOk, ok_bind, values stop last lastOk]
      exact line
  | poly coefficients duration =>
      refine leaf_leads within fun length moment value found => ?_
      obtain ⟨numbers, numbersOk, rest⟩ := (bind_ok_iff _ _ _).1 found
      rw [Scalar.eval_all_extend within numbersOk]
      exact rest
  | native name function duration parameters =>
      refine leaf_leads within fun length moment value found => ?_
      obtain ⟨numbers, numbersOk, rest⟩ := (bind_ok_iff _ _ _).1 found
      rw [Scalar.eval_all_extend within numbersOk]
      exact rest
  | negative inner ih => exact ih.bind fun _ _ refines => .ok refines.negate
  | add left right leftIh rightIh =>
      exact leftIh.bind fun _ _ leftRefines => rightIh.bind fun _ _ rightRefines =>
        .ok (leftRefines.plus rightRefines)
  | scale factor inner ih =>
      exact ih.bind fun _ _ refines => .ok (.scaled_by (values factor) refines)
  | slice inner interval ih =>
      refine ih.bind fun meaning result refines => ?_
      rw [refines.lasts]
      refine (Leads.of_imp fun _ => slice_bounds_extend within).bind fun bounds _ same => ?_
      subst same
      exact .ok (refines.cut _ _)
  | append parts ih =>
      intro meaning means
      obtain ⟨meanings, meaningsOk, same⟩ := (bind_ok_iff _ _ _).1 means
      rw [pure_ok_iff] at same
      subst same
      obtain ⟨results, resultsOk, refine⟩ := signals_leads ih meanings meaningsOk
      refine ⟨concatenate results, ?_, concatenate_refines refine (signals_bounded meaningsOk)
        (signals_bounded resultsOk)⟩
      rw [signal, resultsOk]
      rfl
  | record name inner side ih => exact ih
  | sample inner step interpolation ih =>
      exact ih.bind fun _ _ refines => .ok (.sampled_by interpolation (values step) refines)
  | smooth inner radius kernel ih =>
      exact ih.bind fun _ _ refines => .ok (.smoothed_by kernel (values radius) refines)
  | aligned inner alignment fill ih => exact ih

theorem duration_extend (within : given.Within extended) {waveform : Waveform} {length : Decimal}
    (lasts : waveform.duration given = .ok length) : waveform.duration extended = .ok length := by
  obtain ⟨meaning, means, rfl⟩ := signal_of_duration lasts
  obtain ⟨result, resultMeans, refines⟩ := signal_extend within waveform meaning means
  rw [duration_of_signal resultMeans, refines.lasts]

theorem value_at_extend (within : given.Within extended) {waveform : Waveform}
    {time value : Decimal} (valued : waveform.valueAt given time = .ok value) :
    waveform.valueAt extended time = .ok value := by
  unfold valueAt at valued ⊢
  obtain ⟨meaning, means, found⟩ := (bind_ok_iff _ _ _).1 valued
  obtain ⟨result, resultMeans, refines⟩ := signal_extend within waveform meaning means
  rw [resultMeans]
  exact refines.values time value found

end Waveform

def Waveform.record? : Waveform → Option Record
  | .record name inner side => some ⟨name, inner, side⟩
  | _ => none

def Node.record? : Node → Option Record
  | .waveform value => value.record?
  | _ => none

/-- The record nodes in a sequence, each before those inside it. -/
def Sequence.recordNodes (sequence : Sequence) : List Record :=
  sequence.contents.filterMap Node.record?

theorem Scalar.record_nodes_empty (scalars : List Scalar) :
    (scalars.flatMap contents).filterMap Node.record? = [] := by
  rw [List.filterMap_eq_nil_iff]
  refine List.forall_mem_flatMap.2 fun scalar _ => List.forall_mem_map.2 fun node _ => rfl

namespace Waveform

/-- The scan finds the records of the children, and then the one that the waveform is. -/
theorem records_eq (waveform : Waveform) :
    waveform.records = waveform.children.flatMap records ++ waveform.record?.toList := by
  have all : ∀ parts : List Waveform, recordsAll parts = parts.flatMap records := by
    intro parts
    induction parts with
    | nil => rfl
    | cons part rest ih => rw [recordsAll, List.flatMap_cons, ih]
  cases waveform <;> simp [records, children, record?, all]

theorem record_nodes_perm (waveform : Waveform) :
    (waveform.nodes.filterMap record?).Perm waveform.records := by
  induction waveform using children_induction with
  | step waveform ih =>
      rw [nodes_eq, nodes_all_eq, records_eq, ← List.singleton_append, List.filterMap_append,
        List.filterMap_flatMap]
      have own : List.filterMap record? [waveform] = waveform.record?.toList := by
        cases found : waveform.record? <;> simp [found]
      rw [own]
      exact List.perm_append_comm.trans ((List.Perm.flatMap_left _ ih).append_right _)

theorem contents_records_perm (waveform : Waveform) :
    (waveform.contents.filterMap Node.record?).Perm waveform.records := by
  have same : waveform.contents.filterMap Node.record? = waveform.nodes.filterMap record? := by
    rw [contents, List.filterMap_flatMap, List.filterMap_eq_flatMap_toList]
    refine List.flatMap_congr fun node _ => ?_
    rw [← List.singleton_append, List.filterMap_append, Scalar.record_nodes_empty,
      List.append_nil]
    cases found : node.record? <;> simp [Node.record?, found]
  rw [same]
  exact waveform.record_nodes_perm

end Waveform

theorem Interval.record_nodes_empty (interval : Interval) :
    interval.contents.filterMap Node.record? = [] :=
  Scalar.record_nodes_empty interval.bounds

theorem Drive.record_nodes_perm (drive : Drive) :
    (drive.contents.filterMap Node.record?).Perm drive.waveform.records := by
  rw [contents, Modulation.contents, List.cons_append, List.filterMap_cons_none rfl,
    List.filterMap_append, Scalar.record_nodes_empty, List.nil_append]
  exact drive.waveform.contents_records_perm

theorem PerField.record_nodes_perm (fields : PerField Field) :
    ((fields.entries.flatMap (·.2.contents)).filterMap Node.record?).Perm
      (fields.waveforms.flatMap Waveform.records) := by
  rw [waveforms, List.filterMap_flatMap, List.flatMap_assoc]
  refine List.Perm.flatMap_left _ fun entry _ => ?_
  rw [Field.contents, List.filterMap_cons_none rfl, List.filterMap_flatMap, List.flatMap_map]
  exact List.Perm.flatMap_left _ fun drive _ => drive.record_nodes_perm

namespace Pulse

theorem contents_all_eq (parts : List Pulse) : contentsAll parts = parts.flatMap contents := by
  induction parts with
  | nil => rfl
  | cons part rest ih => rw [contentsAll, List.flatMap_cons, ih]

theorem plains_all_eq (parts : List Pulse) : plainsAll parts = parts.flatMap plains := by
  induction parts with
  | nil => rfl
  | cons part rest ih => rw [plainsAll, List.flatMap_cons, ih]

theorem record_nodes_perm (pulse : Pulse) :
    (pulse.contents.filterMap Node.record?).Perm
      ((pulse.plains.flatMap PerField.waveforms).flatMap Waveform.records) := by
  induction pulse using Pulse.parts_induction with
  | plain fields =>
      rw [contents, plains, List.filterMap_cons_none rfl, List.flatMap_singleton]
      exact fields.record_nodes_perm
  | append parts ih =>
      rw [contents, plains, List.filterMap_cons_none rfl, contents_all_eq, plains_all_eq,
        List.filterMap_flatMap, List.flatMap_assoc, List.flatMap_assoc]
      refine List.Perm.flatMap_left _ fun part member => ?_
      rw [← List.flatMap_assoc]
      exact ih part member
  | slice inner interval ih =>
      rw [contents, List.filterMap_cons_none rfl, List.filterMap_append,
        interval.record_nodes_empty, List.nil_append]
      exact ih
  | named name inner ih =>
      rw [contents, List.filterMap_cons_none rfl]
      exact ih

end Pulse

namespace Sequence

theorem contents_all_eq (parts : List Sequence) : contentsAll parts = parts.flatMap contents := by
  induction parts with
  | nil => rfl
  | cons part rest ih => rw [contentsAll, List.flatMap_cons, ih]

theorem plains_all_eq (parts : List Sequence) : plainsAll parts = parts.flatMap plains := by
  induction parts with
  | nil => rfl
  | cons part rest ih => rw [plainsAll, List.flatMap_cons, ih]

theorem record_nodes_perm (sequence : Sequence) : sequence.recordNodes.Perm sequence.records := by
  unfold recordNodes records waveforms
  induction sequence using Sequence.parts_induction with
  | plain pulses =>
      rw [contents, plains, List.filterMap_cons_none rfl, List.flatMap_singleton,
        List.filterMap_flatMap, List.flatMap_assoc]
      exact List.Perm.flatMap_left _ fun entry _ => entry.2.record_nodes_perm
  | append parts ih =>
      rw [contents, plains, List.filterMap_cons_none rfl, contents_all_eq, plains_all_eq,
        List.filterMap_flatMap, List.flatMap_assoc, List.flatMap_assoc]
      refine List.Perm.flatMap_left _ fun part member => ?_
      rw [← List.flatMap_assoc]
      exact ih part member
  | slice inner interval ih =>
      rw [contents, List.filterMap_cons_none rfl, List.filterMap_append,
        interval.record_nodes_empty, List.nil_append]
      exact ih
  | named name inner ih =>
      rw [contents, List.filterMap_cons_none rfl]
      exact ih

end Sequence

namespace Bindings

/-- Binding a name needs that it is free, and adds this one name. -/
theorem bind_ok_iff {bindings extended : Bindings} {name : String} {value : Decimal} :
    bindings.bind name value = .ok extended ↔ bindings.has name = false ∧
      extended = { bindings with scalars := bindings.scalars.insert name value } := by
  unfold bind find? has NameMap.contains
  cases bindings.scalars.find? name with
  | some number => simp
  | none => cases bindings.vectors.find? name <;> simp [eq_comm]

end Bindings

namespace Record

/-- The time of the recorded value: the start for the left side, and the end for the right. -/
def time (bindings : ScalarBindings) (record : Record) : Outcome Decimal :=
  match record.side with
  | .left => .ok 0
  | .right => record.waveform.duration bindings

variable [Natives]

theorem value_ok_iff (bindings : ScalarBindings) (record : Record) (value : Decimal) :
    record.value bindings = .ok value ↔ ∃ time, record.time bindings = .ok time ∧
      record.waveform.valueAt bindings time = .ok value := by
  unfold Record.value Record.time
  cases record.side with
  | left => simp
  | right => rw [Outcome.bind_ok_iff]

theorem time_extend {given extended : ScalarBindings} (within : given.Within extended)
    {record : Record} {time : Decimal} (found : record.time given = .ok time) :
    record.time extended = .ok time := by
  unfold Record.time at found ⊢
  cases side : record.side with
  | left => rwa [side] at found
  | right =>
      rw [side] at found
      exact Waveform.duration_extend within found

/-- The record stands for the value that it has under the bindings. -/
def Consistent (bindings : ScalarBindings) (record : Record) : Prop :=
  ∃ time value, record.time bindings = .ok time ∧
    record.waveform.valueAt bindings time = .ok value ∧
    bindings.find? record.name = some value

theorem Consistent.extend {given extended : ScalarBindings} (within : given.Within extended)
    {record : Record} (consistent : record.Consistent given) : record.Consistent extended := by
  obtain ⟨time, value, timeOk, valued, found⟩ := consistent
  exact ⟨time, value, time_extend within timeOk, Waveform.value_at_extend within valued,
    within _ _ found⟩

/-- What the scan of some records makes of bindings. -/
structure Scans (records : List Record) (given bound : Bindings) : Prop where
  vectors : bound.vectors = given.vectors
  agrees : ∀ name, given.has name = true →
    bound.scalars.find? name = given.scalars.find? name
  binds : ∀ name, bound.has name = true ↔
    given.has name = true ∨ name ∈ records.map (·.name)
  once : (records.map (·.name)).Nodup
  free : ∀ record ∈ records, given.has record.name = false
  consistent : ∀ record ∈ records, record.Consistent bound.scalars

theorem Scans.within {records : List Record} {given bound : Bindings}
    (scans : Scans records given bound) : given.scalars.Within bound.scalars := by
  intro name value found
  rw [scans.agrees name (by simp [Bindings.has, NameMap.contains, found])]
  exact found

/-- One record takes its value under the bindings before it, and its name must be free. -/
theorem bind_scans {record : Record} {given bound : Bindings}
    (binds : record.bind given = .ok bound) : Scans [record] given bound := by
  obtain ⟨value, valueOk, bindOk⟩ := (Outcome.bind_ok_iff _ _ _).1 binds
  obtain ⟨free, rfl⟩ := Bindings.bind_ok_iff.1 bindOk
  obtain ⟨time, timeOk, valued⟩ := (value_ok_iff _ _ _).1 valueOk
  have agrees : ∀ name, given.has name = true →
      (given.scalars.insert record.name value).find? name = given.scalars.find? name := by
    intro name bound
    have different : name ≠ record.name := by
      rintro rfl
      rw [free] at bound
      cases bound
    rw [NameMap.find_insert, if_neg different]
  have within : given.scalars.Within (given.scalars.insert record.name value) := by
    intro name number found
    rw [agrees name (by simp [Bindings.has, NameMap.contains, found])]
    exact found
  refine ⟨rfl, agrees, fun name => ?_, List.nodup_singleton _, List.forall_mem_singleton.2 free,
    List.forall_mem_singleton.2 ⟨time, value, time_extend within timeOk,
      Waveform.value_at_extend within valued, ?_⟩⟩
  · rw [Bindings.has, Bindings.has, NameMap.contains, NameMap.find_insert, List.map_singleton,
      List.mem_singleton]
    split_ifs with same <;> simp [same, NameMap.contains]
  · rw [NameMap.find_insert, if_pos rfl]

/-- A record that was consistent stays so, because later records only add free names. -/
theorem Scans.cons {record : Record} {rest : List Record} {given next bound : Bindings}
    (first : Scans [record] given next) (others : Scans rest next bound) :
    Scans (record :: rest) given bound := by
  have kept : ∀ name, given.has name = true → next.has name = true :=
    fun name has => (first.binds name).2 (Or.inl has)
  have named : next.has record.name = true := (first.binds _).2 (Or.inr (by simp))
  have restFree : ∀ other ∈ rest, given.has other.name = false := by
    intro other member
    rw [← Bool.not_eq_true]
    intro has
    have has' := kept _ has
    rw [others.free other member] at has'
    cases has'
  refine ⟨others.vectors.trans first.vectors, fun name has => ?_, fun name => ?_, ?_, ?_, ?_⟩
  · rw [others.agrees name (kept name has), first.agrees name has]
  · rw [others.binds, first.binds]
    simp [or_assoc]
  · refine List.nodup_cons.2 ⟨fun repeated => ?_, others.once⟩
    obtain ⟨other, member, same⟩ := List.mem_map.1 repeated
    have free := others.free other member
    rw [show other.name = record.name from same, named] at free
    cases free
  · exact List.forall_mem_cons.2 ⟨first.free record (by simp), restFree⟩
  · exact List.forall_mem_cons.2
      ⟨(first.consistent record (by simp)).extend others.within, others.consistent⟩

theorem bind_all_scans (records : List Record) {given bound : Bindings}
    (binds : bindAll given records = (bound, none)) : Scans records given bound := by
  induction records generalizing given with
  | nil =>
      cases binds
      exact ⟨rfl, fun _ _ => rfl, by simp, List.nodup_nil, by simp, by simp⟩
  | cons record rest ih =>
      unfold bindAll at binds
      split at binds
      case h_1 next nextOk => exact (bind_scans nextOk).cons (ih binds)
      case h_2 => cases binds

/-- The order of records does not matter for what is said of their scan. -/
theorem Scans.perm {records others : List Record} {given bound : Bindings}
    (scans : Scans records given bound) (perm : others.Perm records) :
    Scans others given bound where
  vectors := scans.vectors
  agrees := scans.agrees
  binds := fun name => by rw [scans.binds, (perm.map _).mem_iff]
  once := ((perm.map _).nodup_iff).2 scans.once
  free := fun record member => scans.free record (perm.mem_iff.1 member)
  consistent := fun record member => scans.consistent record (perm.mem_iff.1 member)

end Record

/-- The bindings that the scan of a sequence ends with are consistent. They agree with the given
ones on every name bound there, and bind besides exactly the variables of the record nodes in the
sequence, which are all different and were not bound before as a scalar or as a vector. Under
them every record node has a value at its side: at the time 0 on the left, at its duration on
the right. This is the value its variable is bound to. -/
theorem recorded_bindings_consistent [Natives] {sequence : Sequence} {given bound : Bindings}
    (scanned : sequence.recordedBindings given = .ok bound) :
    (bound.vectors = given.vectors ∧ ∀ name, given.has name = true →
      bound.scalars.find? name = given.scalars.find? name) ∧
    (∀ name, bound.has name = true ↔
      given.has name = true ∨ name ∈ sequence.recordNodes.map (·.name)) ∧
    (sequence.recordNodes.map (·.name)).Nodup ∧
    (∀ record ∈ sequence.recordNodes, given.has record.name = false) ∧
    ∀ record ∈ sequence.recordNodes, ∃ time value, record.time bound.scalars = .ok time ∧
      record.waveform.valueAt bound.scalars time = .ok value ∧
      bound.scalars.find? record.name = some value := by
  unfold Sequence.recordedBindings at scanned
  split at scanned
  case h_1 extended ran =>
      rw [Except.ok.injEq] at scanned
      subst scanned
      have scans := (Record.bind_all_scans _ ran).perm sequence.record_nodes_perm
      exact ⟨⟨scans.vectors, scans.agrees⟩, scans.binds, scans.once, scans.free, scans.consistent⟩
  case h_2 => cases scanned

/-- A ramp up to a limit, and a pause that stays at the recorded end of the ramp. The pause is
recorded inside a slice, whose length is recorded at the start of another drive. -/
def recordedPause : Sequence :=
  .plain { rydberg := some (.plain { detuning := some ⟨[
    ⟨.uniform, .append [
      .record "top" (.ramp (.literal 0) (.variable "limit") (.literal 3)) .right,
      .record "level" (.slice (.constant (.variable "top") (.literal 2))
        ⟨none, some (.variable "top")⟩) .left]⟩,
    ⟨.vector "v", .record "rest" (.constant (.variable "level") (.variable "top")) .right⟩]⟩ }) }

theorem recorded_bindings_consistent_pause :
    ∃ bound, recordedPause.recordedBindings ⟨.ofList [("limit", 2)], .ofList [("v", [1, 0])]⟩ =
        .ok bound ∧
      recordedPause.recordNodes.map (·.name) = ["top", "level", "rest"] ∧
      ∀ record ∈ recordedPause.recordNodes, ∃ time value, record.time bound.scalars = .ok time ∧
        record.waveform.valueAt bound.scalars time = .ok value ∧
        bound.scalars.find? record.name = some value := by
  have scanned : recordedPause.recordedBindings
      ⟨.ofList [("limit", 2)], .ofList [("v", [1, 0])]⟩ =
        .ok ⟨.ofList [("level", 2), ("limit", 2), ("rest", 2), ("top", 2)],
          .ofList [("v", [1, 0])]⟩ := rfl
  obtain ⟨-, -, -, -, consistent⟩ := recorded_bindings_consistent scanned
  exact ⟨_, scanned, rfl, consistent⟩

end Analog
