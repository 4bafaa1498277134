import Analog.Proofs.MergedDrives
import Analog.Proofs.PulseDurations

/-!
# Canonical forms of fixed pulses and sequences

Merging drives keeps their common duration and leaves no field without drives that had some.
The canonical form of a pulse is made of canonical forms of its plain pulses, and lasts as
long as the pulse, if all drives of every plain pulse in it last equally long: only parts
that take no time are left out.
-/

set_option autoImplicit false

namespace Analog

/-- A drive with a number for every scalar of its waveform. -/
structure Drive.Numerical (drive : Drive) : Prop where
  target : drive.target.EachWeight Scalar.Fixed
  waveform : drive.waveform.Numerical

theorem Drive.Numerical.fixed {drive : Drive} (numerical : drive.Numerical) : drive.Fixed :=
  ⟨numerical.target, numerical.waveform.fixed⟩

namespace Canonical

variable {bindings : ScalarBindings}

theorem Keeps.all {α ι : Type} [Nonempty ι] {invariant : Memo → Prop} {work : Simplifying α}
    {good : ι → α → Prop} (each : ∀ index, Keeps invariant work (good index)) :
    Keeps invariant work fun result => ∀ index, good index result := by
  intro memo holds
  obtain ⟨anyIndex⟩ := ‹Nonempty ι›
  exact ⟨(each anyIndex memo holds).1, fun result ran index =>
    (each index memo holds).2 result ran⟩

section

variable {α β κ : Type} {judges : (γ : Type) → Simplifying γ → (γ → Prop) → Prop}
  (stepwise : Stepwise judges) {work : α → Simplifying β} {good : α → β → Prop}
include stepwise

theorem Stepwise.entries {entries : List (κ × α)}
    (each : ∀ entry ∈ entries, judges β (work entry.2) (good entry.2)) :
    judges _
      (entries.mapM fun entry => do
        let value ← work entry.2
        return (entry.1, value))
      (List.Forall₂ (fun entry result => result.1 = entry.1 ∧ good entry.2 result.2) entries) :=
  stepwise.mapM fun entry member => stepwise.bind (each entry member) fun _ valueGood =>
    stepwise.pure ⟨rfl, valueGood⟩

theorem Stepwise.per_field (table : PerField α)
    (each : ∀ name value, table.get? name = some value → judges β (work value) (good value)) :
    judges _ (table.mapM work) fun result =>
      ∀ name, Option.Rel good (table.get? name) (result.get? name) := by
  unfold PerField.mapM
  have entries : ∀ entry ∈ table.entries, judges β (work entry.2) (good entry.2) :=
    fun entry member => each entry.1 entry.2 ((table.mem_entries_iff _ _).1 member)
  exact stepwise.bind (stepwise.entries entries) fun results related =>
    stepwise.pure (table.related_of_entries related)

/-- What is done for each coupling is judged coupling by coupling. -/
theorem Stepwise.per_coupling (table : PerCoupling α)
    (each : ∀ coupling value, table.get? coupling = some value → judges β (work value) (good value)) :
    judges _ (table.mapM work) fun result =>
      ∀ coupling, Option.Rel good (table.get? coupling) (result.get? coupling) := by
  unfold PerCoupling.mapM
  have entries : ∀ entry ∈ table.entries, judges β (work entry.2) (good entry.2) :=
    fun entry member => each entry.1 entry.2 ((table.mem_entries_iff _ _).1 member)
  exact stepwise.bind (stepwise.entries entries) fun results related =>
    stepwise.pure (table.related_of_entries related)

end

theorem locations_keep {listed : List Location}
    (fixed : ∀ location ∈ listed, location.weight.Fixed) :
    Keeps (Steady bindings) (locations listed) fun result =>
      ∀ location ∈ result, location.weight.Fixed := by
  rw [locations_eq_mapM]
  have each : ∀ location ∈ listed, Keeps (Steady bindings)
      (do
        let weight ← scalar location.weight
        return (⟨location.site, weight⟩ : Location))
      fun result => result.weight.Fixed := by
    intro location member
    refine (scalar_keeps _ (fixed location member)).bind fun weight settles => ?_
    obtain ⟨_, found, _⟩ := settles
    exact .pure (number_fixed found)
  refine (Keeps.mapM each).mono fun results related result member => ?_
  obtain ⟨_, _, resultFixed⟩ := Outcome.source_of_mem related member
  exact resultFixed

theorem of_locations_fixed {listed : List Location}
    (fixed : ∀ location ∈ listed, location.weight.Fixed) :
    (Modulation.ofLocations listed).EachWeight Scalar.Fixed :=
  Modulation.of_locations_each
    (fun first second firstFixed secondFixed =>
      (Scalar.fixed_add_iff first second).2 ⟨firstFixed, secondFixed⟩) fixed

theorem modulation_keeps {given : Modulation} (fixed : given.EachWeight Scalar.Fixed) :
    Keeps (Steady bindings) (modulation given) fun result => result.EachWeight Scalar.Fixed := by
  cases given with
  | scaled listed =>
      rw [modulation]
      exact (locations_keep fixed).bind fun listed' listedFixed =>
        .pure (of_locations_fixed listedFixed)
  | _ => exact .pure fixed

/-- A numerical drive that lasts for a given time, if one is given. -/
structure Timed (bindings : ScalarBindings) (time : Option Decimal) (drive : Drive) : Prop where
  numerical : drive.Numerical
  lasts : ∀ length ∈ time, drive.waveform.duration bindings = .ok length

variable {time : Option Decimal}

theorem merge_pair_keeps {first second : Drive} (firstTimed : Timed bindings time first)
    (secondTimed : Timed bindings time second) :
    Keeps (Steady bindings) (mergePair first second) fun result =>
      ∀ merged ∈ result, Timed bindings time merged := by
  unfold mergePair
  split_ifs
  · refine (add_keeps _ _ firstTimed.numerical.waveform secondTimed.numerical.waveform).bind
      fun waveform replaces => .pure ?_
    simp only [Option.mem_def, Option.some.injEq, forall_eq']
    refine ⟨⟨firstTimed.numerical.target, replaces.numerical⟩, fun length given => ?_⟩
    apply replaces.lasts
    exact (Waveform.add_duration_ok_iff _ _ _).2
      ⟨length, length, firstTimed.lasts length given, secondTimed.lasts length given,
        (max_self length).symm⟩
  · split
    case h_1 firstSites secondSites firstListed secondListed =>
        have firstFixed := firstTimed.numerical.target
        have secondFixed := secondTimed.numerical.target
        rw [firstListed] at firstFixed
        rw [secondListed] at secondFixed
        have union := of_locations_fixed (List.forall_mem_append.2 ⟨firstFixed, secondFixed⟩)
        refine (modulation_keeps union).bind fun target targetFixed => .pure ?_
        simp only [Option.mem_def, Option.some.injEq, forall_eq']
        exact ⟨⟨targetFixed, firstTimed.numerical.waveform⟩, firstTimed.lasts⟩
    case h_2 => exact .pure (by simp)
  · exact .pure (by simp)

def EmptyTogether (given result : List Drive) : Prop :=
  result = [] ↔ given = []

theorem empty_together_merging : Merging EmptyTogether where
  refl _ := Iff.rfl
  trans one two := two.trans one
  cons := by simp [EmptyTogether]
  swap := by simp [EmptyTogether]

theorem timed_replaces {given : List Drive} (someGiven : given ≠ []) {drive : Drive}
    (timed : Timed bindings time drive) :
    Replaced (Timed bindings time) EmptyTogether given drive :=
  ⟨timed, fun rest => by simp [EmptyTogether, someGiven]⟩

theorem drive_keeps {given : Drive} (fixed : given.Fixed)
    (lasts : ∀ length ∈ time, given.waveform.duration bindings = .ok length) :
    Keeps (Steady bindings) (drive given) (Timed bindings time) := by
  refine (modulation_keeps fixed.target).bind fun target targetFixed => ?_
  exact (waveform_keeps _ fixed.waveform).bind fun waveform' replaces =>
    .pure ⟨⟨targetFixed, replaces.numerical⟩, fun length given =>
      replaces.lasts length (lasts length given)⟩

/-- What the canonical form of a field has in common with it. -/
structure FieldRefines (bindings : ScalarBindings) (given result : Field) : Prop where
  numerical : ∀ drive ∈ result.drives, drive.Numerical
  apart : Field.Apart result.drives
  emptyIff : result.drives = [] ↔ given.drives = []
  lasts : ∀ length, (∀ drive ∈ given.drives, drive.waveform.duration bindings = .ok length) →
    ∀ drive ∈ result.drives, drive.waveform.duration bindings = .ok length

theorem field_timed {given : Field} (fixed : ∀ drive ∈ given.drives, drive.Fixed)
    (lasts : ∀ length ∈ time, ∀ drive ∈ given.drives,
      drive.waveform.duration bindings = .ok length) :
    Keeps (Steady bindings) (field given) fun result =>
      Field.Apart result.drives ∧ Merged (Timed bindings time) EmptyTogether given.drives
        result.drives := by
  apply field_merges (keeps_stepwise (Steady bindings)) empty_together_merging
  · intro first second firstTimed secondTimed
    exact (merge_pair_keeps firstTimed secondTimed).mono fun result timed merged member =>
      timed_replaces (by simp) (timed merged member)
  · intro item member
    exact (drive_keeps (fixed item member) fun length isTime => lasts length isTime item member).mono
      fun result timed => timed_replaces (by simp) timed
  · intro first second firstTimed secondTimed _
    refine timed_replaces (by simp) ⟨⟨firstTimed.numerical.target, ?_⟩, fun length given => ?_⟩
    · exact (Waveform.numerical_add_iff _ _).2
        ⟨firstTimed.numerical.waveform, secondTimed.numerical.waveform⟩
    · exact (Waveform.add_duration_ok_iff _ _ _).2
        ⟨length, length, firstTimed.lasts length given, secondTimed.lasts length given,
          (max_self length).symm⟩

theorem field_keeps {given : Field} (fixed : ∀ drive ∈ given.drives, drive.Fixed) :
    Keeps (Steady bindings) (field given) (FieldRefines bindings given) := by
  -- One run for every time that the drives may last for, and one without a time.
  let Times := { time : Option Decimal // ∀ length ∈ time, ∀ drive ∈ given.drives,
    drive.waveform.duration bindings = .ok length }
  have : Nonempty Times := ⟨none, by simp⟩
  have every : ∀ time : Times, Keeps (Steady bindings) (field given) fun result =>
      Field.Apart result.drives ∧ Merged (Timed bindings time.1) EmptyTogether given.drives
        result.drives :=
    fun time => field_timed fixed time.2
  refine (Keeps.all every).mono fun result all => ?_
  obtain ⟨apart, timed⟩ := all ⟨none, by simp⟩
  refine ⟨fun drive member => (timed.each drive member).numerical, apart, timed.related, ?_⟩
  intro length lasts drive member
  obtain ⟨_, lasting⟩ := all ⟨some length, by simpa using lasts⟩
  exact (lasting.each drive member).lasts length rfl

/-- Field by field, a plain pulse is the canonical form of another. -/
def FieldsRefine (bindings : ScalarBindings) (given result : PerField Field) : Prop :=
  ∀ name, Option.Rel (FieldRefines bindings) (given.get? name) (result.get? name)

namespace FieldsRefine

variable {given result : PerField Field}

theorem source (refine : FieldsRefine bindings given result) {name : FieldName} {field : Field}
    (found : result.get? name = some field) :
    ∃ before, given.get? name = some before ∧ FieldRefines bindings before field := by
  have related := refine name
  rw [found] at related
  generalize given.get? name = before at related ⊢
  cases related with
  | some refines => exact ⟨_, rfl, refines⟩

theorem numerical (refine : FieldsRefine bindings given result) :
    result.EachDrive Drive.Numerical := by
  intro name field found
  obtain ⟨_, _, refines⟩ := refine.source found
  exact refines.numerical

theorem fixed (refine : FieldsRefine bindings given result) : result.EachDrive Drive.Fixed :=
  refine.numerical.mono fun _ numerical => numerical.fixed

theorem apart (refine : FieldsRefine bindings given result) {name : FieldName} {field : Field}
    (found : result.get? name = some field) : Field.Apart field.drives := by
  obtain ⟨_, _, refines⟩ := refine.source found
  exact refines.apart

theorem drives_iff (refine : FieldsRefine bindings given result) (name : FieldName) :
    result.Drives name ↔ given.Drives name := by
  have related := refine name
  unfold PerField.Drives
  generalize given.get? name = before at related ⊢
  generalize result.get? name = after at related ⊢
  cases related with
  | none => simp
  | some refines => simp [refines.emptyIff]

theorem lasts (refine : FieldsRefine bindings given result) {length : Decimal}
    (lasting : given.Lasts bindings length) : result.Lasts bindings length := by
  intro name field found
  obtain ⟨before, beforeFound, refines⟩ := refine.source found
  exact refines.lasts length (lasting name before beforeFound)

/-- A plain pulse whose drives last equally long keeps its duration. -/
theorem duration (refine : FieldsRefine bindings given result)
    (givenFixed : given.EachDrive Drive.Fixed) (even : given.Even bindings) {value : Decimal}
    (evaluates : (Pulse.plainDuration given).eval bindings = .ok value) :
    (Pulse.plainDuration result).eval bindings = .ok value := by
  obtain ⟨length, lasting⟩ := even
  by_cases driven : ∃ name, given.Drives name
  · have before := (PerField.plain_duration_known
      (givenFixed.mono fun _ drive => drive.waveform.mono Scalar.fixed_family.tidied) lasting
      driven).evaluates
    rw [evaluates, Except.ok.injEq] at before
    rw [before]
    have resultDriven : ∃ name, result.Drives name :=
      driven.imp fun name => (refine.drives_iff name).2
    exact (PerField.plain_duration_known
      (refine.fixed.mono fun _ drive => drive.waveform.mono Scalar.fixed_family.tidied)
      (refine.lasts lasting) resultDriven).evaluates
  · rw [not_exists] at driven
    have before := (@PerField.plain_duration_zero bindings given driven).evaluates
    rw [evaluates, Except.ok.injEq] at before
    rw [before]
    refine (PerField.plain_duration_zero fun name => ?_).evaluates
    rw [refine.drives_iff]
    exact driven name

end FieldsRefine

theorem fields_keep {given : PerField Field} (fixed : given.EachDrive Drive.Fixed) :
    Keeps (Steady bindings) (given.mapM field) (FieldsRefine bindings given) :=
  (keeps_stepwise _).per_field given fun name value found => field_keeps (fixed name value found)

def Totals {α : Type} (bindings : ScalarBindings) (length : α → Scalar) (parts : List α)
    (total : Decimal) : Prop :=
  ∃ values, List.Forall₂ (fun part value => (length part).eval bindings = .ok value) parts values ∧
    total = values.sum

theorem totals_nil {α : Type} (length : α → Scalar) : Totals bindings length [] 0 :=
  ⟨[], List.Forall₂.nil, rfl⟩

theorem totals_cons_iff {α : Type} (length : α → Scalar) (part : α) (rest : List α)
    (total : Decimal) :
    Totals bindings length (part :: rest) total ↔
      ∃ first others, (length part).eval bindings = .ok first ∧
        Totals bindings length rest others ∧ total = first + others := by
  constructor
  · rintro ⟨_, each, rfl⟩
    cases each with
    | cons firstOk restEach =>
        exact ⟨_, _, firstOk, ⟨_, restEach, rfl⟩, List.sum_cons⟩
  · rintro ⟨first, _, firstOk, ⟨values, each, rfl⟩, rfl⟩
    exact ⟨first :: values, List.Forall₂.cons firstOk each, List.sum_cons.symm⟩

theorem totals_append {α : Type} {length : α → Scalar} {before after : List α}
    {first second : Decimal} (beforeTotal : Totals bindings length before first)
    (afterTotal : Totals bindings length after second) :
    Totals bindings length (before ++ after) (first + second) := by
  obtain ⟨firsts, firstEach, rfl⟩ := beforeTotal
  obtain ⟨seconds, secondEach, rfl⟩ := afterTotal
  exact ⟨firsts ++ seconds, List.rel_append firstEach secondEach, List.sum_append.symm⟩

/-- What is noted of a part: that it takes no time only if it does. -/
def Marks {α : Type} (bindings : ScalarBindings) (length : α → Scalar) (part : α)
    (marked : α × Bool × List Channel) : Prop :=
  marked.1 = part ∧ (marked.2.1 = true →
    ∀ value, (length part).eval bindings = .ok value → value = 0)

theorem drop_empty_sublist {α : Type} (covered : KeyedSet Channel)
    (marked : List (α × Bool × List Channel)) :
    (dropEmpty covered marked).Sublist (marked.map Prod.fst) := by
  induction marked generalizing covered with
  | nil => exact List.Sublist.slnil
  | cons mark rest ih =>
      rw [dropEmpty]
      split_ifs
      · exact (ih covered).cons _
      · exact (ih _).cons_cons _
      · exact (ih covered).cons_cons _

theorem drop_empty_totals {α : Type} {length : α → Scalar} {parts : List α}
    {marked : List (α × Bool × List Channel)} (covered : KeyedSet Channel)
    (marks : List.Forall₂ (Marks bindings length) parts marked) (total : Decimal)
    (totals : Totals bindings length parts total) :
    Totals bindings length (dropEmpty covered marked) total := by
  induction marks generalizing covered total with
  | nil => exact totals
  | @cons part mark rest marked marks _ ih =>
      obtain ⟨same, empty, channels⟩ := mark
      obtain ⟨rfl, zero⟩ := marks
      obtain ⟨first, others, firstOk, othersOk, rfl⟩ := (totals_cons_iff _ _ _ _).1 totals
      have keeps : ∀ covered', Totals bindings length (same :: dropEmpty covered' marked)
          (first + others) := fun covered' =>
        (totals_cons_iff _ _ _ _).2 ⟨first, others, firstOk, ih covered' others othersOk, rfl⟩
      rw [dropEmpty]
      split_ifs with isEmpty
      · rw [zero isEmpty first firstOk, zero_add]
        exact ih covered others othersOk
      · exact keeps _
      · exact keeps _

theorem is_empty_keeps {length : Scalar} (fixed : length.Fixed) :
    Keeps (Steady bindings) (isEmpty length) fun empty =>
      empty = true → ∀ value, length.eval bindings = .ok value → value = 0 := by
  refine (scalar_keeps _ fixed).bind fun length' settles => .pure fun empty value evaluates => ?_
  obtain ⟨number, found, only⟩ := settles
  rw [only value evaluates]
  simpa [Scalar.isZero, found] using empty

theorem retain_keeps {α : Type} {length : α → Scalar} {channels : α → List Channel}
    {parts : List α} (fixed : ∀ part ∈ parts, (length part).Fixed) :
    Keeps (Steady bindings) (retain length channels parts) fun kept =>
      kept.Sublist parts ∧ ∀ total, Totals bindings length parts total →
        Totals bindings length kept total := by
  unfold retain
  have each : ∀ part ∈ parts, Keeps (Steady bindings)
      (do
        let empty ← isEmpty (length part)
        return (part, empty, channels part)) (Marks bindings length part) := fun part member =>
    (is_empty_keeps (fixed part member)).bind fun _ zero => .pure ⟨rfl, zero⟩
  refine (Keeps.mapM each).bind fun marked marks => .pure ⟨?_, drop_empty_totals _ marks⟩
  have same : marked.map Prod.fst = parts := by
    rw [Outcome.map_eq_of_related marks fun _ _ mark => mark.1, List.map_id']
  exact same ▸ drop_empty_sublist _ marked

theorem slice_number_eval {extent extent' : Scalar} {given result : Interval} {value : Decimal}
    (extentKept : ∀ number, extent.eval bindings = .ok number → extent'.eval bindings = .ok number)
    (startSettles : SettlesBound bindings given.start result.start)
    (stopSettles : SettlesBound bindings given.stop result.stop)
    (evaluates : (Scalar.slice extent given.start given.stop).eval bindings = .ok value) :
    (Scalar.slice extent' result.start result.stop).eval bindings = .ok value := by
  obtain ⟨startNumber, startFound, startOnly⟩ := startSettles
  obtain ⟨stopNumber, stopFound, stopOnly⟩ := stopSettles
  obtain ⟨number, start, stop, numberOk, startOk, stopOk, lengthOk⟩ :=
    (Scalar.eval_slice_ok_iff _ _ _ _).1 evaluates
  refine (Scalar.eval_slice_ok_iff _ _ _ _).2
    ⟨number, start, stop, extentKept number numberOk, ?_, ?_, lengthOk⟩
  · rw [startOnly start startOk]
    exact eval_bound_number startFound
  · rw [stopOnly stop stopOk]
    exact eval_bound_number stopFound

theorem bounded_of_settles {given result : Interval}
    (startSettles : SettlesBound bindings given.start result.start)
    (stopSettles : SettlesBound bindings given.stop result.stop) : Bounded result := by
  obtain ⟨startNumber, startFound, _⟩ := startSettles
  obtain ⟨stopNumber, stopFound, _⟩ := stopSettles
  exact (bounded_iff result).2 ⟨⟨startNumber, startFound⟩, stopNumber, stopFound⟩

theorem Bounded.fixed {bounds : Interval} (bounded : Bounded bounds) : bounds.Fixed := by
  intro bound member
  obtain ⟨number, found⟩ := bounded bound member
  exact number_fixed found

theorem covers_all_eval {extent length : Scalar} {bounds : Interval} {value : Decimal}
    (bounded : Bounded bounds) (settles : Settles bindings extent length)
    (covers : coversAll bounds length = true)
    (evaluates : (Scalar.slice extent bounds.start bounds.stop).eval bindings = .ok value) :
    extent.eval bindings = .ok value := by
  obtain ⟨number, found, only⟩ := settles
  obtain ⟨extentValue, start, stop, extentOk, startOk, stopOk, lengthOk⟩ :=
    (Scalar.eval_slice_ok_iff _ _ _ _).1 evaluates
  obtain rfl := only extentValue extentOk
  rw [covers_all_length bounded found covers startOk stopOk lengthOk, extentOk]

/-- What the canonical form of a pulse has in common with it. -/
structure PulseRefines (bindings : ScalarBindings) (given result : Pulse) : Prop where
  fixed : result.Fixed
  plains : ∀ fields ∈ result.plains, fields = .empty ∨
    ∃ source ∈ given.plains, FieldsRefine bindings source fields
  lasts : (∀ source ∈ given.plains, source.Even bindings) → ∀ value,
    given.symbolicDuration.eval bindings = .ok value →
      result.symbolicDuration.eval bindings = .ok value

theorem splice_pulses_fixed {parts : List Pulse} (fixed : ∀ part ∈ parts, part.Fixed) :
    ∀ part ∈ parts.flatMap splicePulses, part.Fixed := by
  intro part member
  obtain ⟨whole, wholeMember, found⟩ := List.mem_flatMap.1 member
  have wholeFixed := fixed whole wholeMember
  unfold splicePulses at found
  split at found
  · exact (Pulse.each_append_iff _).1 wholeFixed part found
  · rw [List.mem_singleton.1 found]
    exact wholeFixed

theorem splice_pulses_plains {parts : List Pulse} {part : Pulse} {fields : PerField Field}
    (member : part ∈ parts.flatMap splicePulses) (found : fields ∈ part.plains) :
    ∃ whole ∈ parts, fields ∈ whole.plains := by
  obtain ⟨whole, wholeMember, inside⟩ := List.mem_flatMap.1 member
  refine ⟨whole, wholeMember, ?_⟩
  unfold splicePulses at inside
  split at inside
  · rw [Pulse.plains, Pulse.mem_plains_all]
    exact ⟨part, inside, found⟩
  · rw [← List.mem_singleton.1 inside]
    exact found

theorem splice_pulses_total (parts : List Pulse) (total : Decimal)
    (totals : Totals bindings Pulse.symbolicDuration parts total) :
    Totals bindings Pulse.symbolicDuration (parts.flatMap splicePulses) total := by
  induction parts generalizing total with
  | nil => exact totals
  | cons part rest ih =>
      obtain ⟨first, others, firstOk, othersOk, rfl⟩ := (totals_cons_iff _ _ _ _).1 totals
      rw [List.flatMap_cons]
      refine totals_append ?_ (ih others othersOk)
      unfold splicePulses
      split
      · exact (Pulse.append_duration_ok_iff _ _).1 firstOk
      · exact (totals_cons_iff _ _ _ _).2 ⟨first, 0, firstOk, totals_nil _, (add_zero _).symm⟩

theorem concatenate_pulses_keeps {parts : List Pulse} (fixed : ∀ part ∈ parts, part.Fixed) :
    Keeps (Steady bindings) (concatenatePulses parts) fun result =>
      result.Fixed ∧
        (∀ fields ∈ result.plains, fields = .empty ∨ ∃ part ∈ parts, fields ∈ part.plains) ∧
        ∀ total, Totals bindings Pulse.symbolicDuration parts total →
          result.symbolicDuration.eval bindings = .ok total := by
  unfold concatenatePulses
  have splicedFixed := splice_pulses_fixed fixed
  refine (retain_keeps fun part member =>
    part.symbolic_duration_each Scalar.fixed_family (splicedFixed part member)).bind ?_
  rintro kept ⟨sublist, totals⟩
  have keptFixed : ∀ part ∈ kept, part.Fixed := fun part member =>
    splicedFixed part (sublist.subset member)
  have keptPlains : ∀ part ∈ kept, ∀ fields ∈ part.plains, ∃ whole ∈ parts, fields ∈ whole.plains :=
    fun part member fields found => splice_pulses_plains (sublist.subset member) found
  have keptTotals : ∀ total, Totals bindings Pulse.symbolicDuration parts total →
      Totals bindings Pulse.symbolicDuration kept total :=
    fun total given => totals total (splice_pulses_total parts total given)
  rcases kept with _ | ⟨part, _ | ⟨second, others⟩⟩
  · refine .pure ⟨PerField.each_drive_empty, ?_, fun total given => ?_⟩
    · simp [Pulse.plains]
    · obtain ⟨_, each, rfl⟩ := keptTotals total given
      cases each
      rfl
  · refine .pure ⟨keptFixed part (by simp), ?_, fun total given => ?_⟩
    · exact fun fields found => Or.inr (keptPlains part (by simp) fields found)
    · obtain ⟨first, others, firstOk, ⟨_, each, rfl⟩, rfl⟩ :=
        (totals_cons_iff _ _ _ _).1 (keptTotals total given)
      cases each
      rw [List.sum_nil, add_zero]
      exact firstOk
  · refine .pure ⟨(Pulse.each_append_iff _).2 keptFixed, ?_, fun total given => ?_⟩
    · intro fields found
      rw [Pulse.plains, Pulse.mem_plains_all] at found
      obtain ⟨part, member, inside⟩ := found
      exact Or.inr (keptPlains part member fields inside)
    · exact (Pulse.append_duration_ok_iff _ _).2 (keptTotals total given)

theorem totals_refined {parts results : List Pulse}
    (refine : List.Forall₂ (PulseRefines bindings) parts results)
    (even : ∀ part ∈ parts, ∀ source ∈ part.plains, source.Even bindings) (total : Decimal)
    (totals : Totals bindings Pulse.symbolicDuration parts total) :
    Totals bindings Pulse.symbolicDuration results total := by
  induction refine generalizing total with
  | nil => exact totals
  | cons refines _ ih =>
      obtain ⟨first, others, firstOk, othersOk, sum⟩ := (totals_cons_iff _ _ _ _).1 totals
      obtain ⟨partEven, restEven⟩ := List.forall_mem_cons.1 even
      exact (totals_cons_iff _ _ _ _).2
        ⟨first, others, refines.lasts partEven first firstOk, ih restEven others othersOk, sum⟩

theorem pulse_keeps (given : Pulse) (fixed : given.Fixed) :
    Keeps (Steady bindings) (pulse given) (PulseRefines bindings given) := by
  unfold Pulse.Fixed Pulse.EachScalar at fixed
  induction given using Pulse.parts_induction with
  | plain fields =>
      rw [pulse]
      refine (fields_keep fixed).bind fun fields' refine => .pure ⟨refine.fixed, ?_, ?_⟩
      · simpa [Pulse.plains] using Or.inr refine
      · exact fun even value evaluates =>
          refine.duration fixed (even fields (by simp [Pulse.plains])) evaluates
  | append parts ih =>
      rw [pulse, pulses_eq_mapM]
      rw [Pulse.each_append_iff] at fixed
      refine (Keeps.mapM fun part member => ih part member (fixed part member)).bind
        fun parts' related => ?_
      have partsFixed : ∀ part ∈ parts', part.Fixed := by
        intro part member
        obtain ⟨_, _, refines⟩ := Outcome.source_of_mem related member
        exact refines.fixed
      refine (concatenate_pulses_keeps partsFixed).mono ?_
      rintro result ⟨resultFixed, plains, totals⟩
      refine ⟨resultFixed, fun fields found => ?_, fun even value evaluates => ?_⟩
      · rcases plains fields found with empty | ⟨part', member, inside⟩
        · exact Or.inl empty
        · obtain ⟨part, partMember, refines⟩ := Outcome.source_of_mem related member
          refine (refines.plains fields inside).imp id ?_
          rintro ⟨source, sourceMember, refine⟩
          refine ⟨source, ?_, refine⟩
          rw [Pulse.plains, Pulse.mem_plains_all]
          exact ⟨part, partMember, sourceMember⟩
      · refine totals value (totals_refined related (fun part member source found => ?_) value
          ((Pulse.append_duration_ok_iff _ _).1 evaluates))
        apply even
        rw [Pulse.plains, Pulse.mem_plains_all]
        exact ⟨part, member, found⟩
  | slice inner interval ih =>
      rw [pulse]
      refine (ih fixed.1).bind fun inner' refines => ?_
      refine (interval_keeps _ fixed.2).bind ?_
      rintro bounds ⟨startSettles, stopSettles⟩
      refine (scalar_keeps _ (inner'.symbolic_duration_each Scalar.fixed_family refines.fixed)).bind
        fun length settles => ?_
      have bounded := bounded_of_settles startSettles stopSettles
      have lasts : (∀ source ∈ inner.plains, source.Even bindings) → ∀ value,
          (Pulse.slice inner interval).symbolicDuration.eval bindings = .ok value →
            (Pulse.slice inner' bounds).symbolicDuration.eval bindings = .ok value :=
        fun even value evaluates =>
          slice_number_eval (refines.lasts even) startSettles stopSettles evaluates
      split_ifs with covers
      · exact .pure ⟨refines.fixed, refines.plains, fun even value evaluates =>
          covers_all_eval bounded settles covers (lasts even value evaluates)⟩
      · exact .pure ⟨⟨refines.fixed, bounded.fixed⟩, refines.plains, lasts⟩
  | named name inner ih =>
      rw [pulse]
      exact (ih fixed).bind fun inner' refines =>
        .pure ⟨refines.fixed, refines.plains, refines.lasts⟩

/-- What the canonical form of a sequence has in common with it. -/
structure SequenceRefines (bindings : ScalarBindings) (given result : Sequence) : Prop where
  fixed : result.Fixed
  plains : ∀ pulses ∈ result.plains, pulses = .empty ∨ ∃ source ∈ given.plains, ∀ coupling,
    Option.Rel (PulseRefines bindings) (source.get? coupling) (pulses.get? coupling)

theorem splice_sequences_fixed {parts : List Sequence} (fixed : ∀ part ∈ parts, part.Fixed) :
    ∀ part ∈ parts.flatMap spliceSequences, part.Fixed := by
  intro part member
  obtain ⟨whole, wholeMember, found⟩ := List.mem_flatMap.1 member
  have wholeFixed := fixed whole wholeMember
  unfold spliceSequences at found
  split at found
  · exact (Sequence.each_append_iff _).1 wholeFixed part found
  · rw [List.mem_singleton.1 found]
    exact wholeFixed

theorem splice_sequences_plains {parts : List Sequence} {part : Sequence}
    {pulses : PerCoupling Pulse} (member : part ∈ parts.flatMap spliceSequences)
    (found : pulses ∈ part.plains) : ∃ whole ∈ parts, pulses ∈ whole.plains := by
  obtain ⟨whole, wholeMember, inside⟩ := List.mem_flatMap.1 member
  refine ⟨whole, wholeMember, ?_⟩
  unfold spliceSequences at inside
  split at inside
  · rw [Sequence.plains, Sequence.mem_plains_all]
    exact ⟨part, inside, found⟩
  · rw [← List.mem_singleton.1 inside]
    exact found

theorem concatenate_sequences_keeps {parts : List Sequence} (fixed : ∀ part ∈ parts, part.Fixed) :
    Keeps (Steady bindings) (concatenateSequences parts) fun result =>
      result.Fixed ∧
        ∀ pulses ∈ result.plains, pulses = .empty ∨ ∃ part ∈ parts, pulses ∈ part.plains := by
  unfold concatenateSequences
  have splicedFixed := splice_sequences_fixed fixed
  refine (retain_keeps fun part member =>
    part.symbolic_duration_each Scalar.fixed_family (splicedFixed part member)).bind ?_
  rintro kept ⟨sublist, _⟩
  have keptFixed : ∀ part ∈ kept, part.Fixed := fun part member =>
    splicedFixed part (sublist.subset member)
  have keptPlains : ∀ part ∈ kept, ∀ pulses ∈ part.plains, ∃ whole ∈ parts, pulses ∈ whole.plains :=
    fun part member pulses found => splice_sequences_plains (sublist.subset member) found
  rcases kept with _ | ⟨part, _ | ⟨second, others⟩⟩
  · refine .pure ⟨fun coupling pulse found => ?_, ?_⟩
    · simp at found
    · simp [Sequence.plains]
  · exact .pure ⟨keptFixed part (by simp), fun pulses found =>
      Or.inr (keptPlains part (by simp) pulses found)⟩
  · refine .pure ⟨(Sequence.each_append_iff _).2 keptFixed, fun pulses found => ?_⟩
    rw [Sequence.plains, Sequence.mem_plains_all] at found
    obtain ⟨part, member, inside⟩ := found
    exact Or.inr (keptPlains part member pulses inside)

theorem sequence_keeps (given : Sequence) (fixed : given.Fixed) :
    Keeps (Steady bindings) (sequence given) (SequenceRefines bindings given) := by
  unfold Sequence.Fixed Sequence.EachScalar at fixed
  induction given using Sequence.parts_induction with
  | plain pulses =>
      rw [sequence]
      refine ((keeps_stepwise _).per_coupling pulses fun coupling given found =>
        pulse_keeps given (fixed coupling given found)).bind fun pulses' related => .pure ⟨?_, ?_⟩
      · intro coupling result found
        have refines := related coupling
        rw [found] at refines
        generalize pulses.get? coupling = before at refines
        cases refines with
        | some refines => exact refines.fixed
      · simpa [Sequence.plains] using Or.inr related
  | append parts ih =>
      rw [sequence, sequences_eq_mapM]
      rw [Sequence.each_append_iff] at fixed
      refine (Keeps.mapM fun part member => ih part member (fixed part member)).bind
        fun parts' related => ?_
      have partsFixed : ∀ part ∈ parts', part.Fixed := by
        intro part member
        obtain ⟨_, _, refines⟩ := Outcome.source_of_mem related member
        exact refines.fixed
      refine (concatenate_sequences_keeps partsFixed).mono ?_
      rintro result ⟨resultFixed, plains⟩
      refine ⟨resultFixed, fun pulses found => ?_⟩
      rcases plains pulses found with empty | ⟨part', member, inside⟩
      · exact Or.inl empty
      · obtain ⟨part, partMember, refines⟩ := Outcome.source_of_mem related member
        refine (refines.plains pulses inside).imp id ?_
        rintro ⟨source, sourceMember, refine⟩
        refine ⟨source, ?_, refine⟩
        rw [Sequence.plains, Sequence.mem_plains_all]
        exact ⟨part, partMember, sourceMember⟩
  | slice inner interval ih =>
      rw [sequence]
      refine (ih fixed.1).bind fun inner' refines => ?_
      refine (interval_keeps _ fixed.2).bind ?_
      rintro bounds ⟨startSettles, stopSettles⟩
      refine (scalar_keeps _ (inner'.symbolic_duration_each Scalar.fixed_family refines.fixed)).bind
        fun length settles => ?_
      have bounded := bounded_of_settles startSettles stopSettles
      split_ifs with covers
      · exact .pure ⟨refines.fixed, refines.plains⟩
      · exact .pure ⟨⟨refines.fixed, bounded.fixed⟩, refines.plains⟩
  | named name inner ih =>
      rw [sequence]
      exact (ih fixed).bind fun inner' refines => .pure ⟨refines.fixed, refines.plains⟩

end Canonical

end Analog
