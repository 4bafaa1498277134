import Mathlib.Data.List.Forall2
import Mathlib.Data.List.Nodup
import Analog.Proofs.Outcomes
import Analog.Sequence

/-!
# Parts of pulses and sequences

Induction over pulses and sequences, and statements about all plain pulses and all slice
bounds inside them. Tables by field name or coupling are seen through their entries, and a
field is seen through the drives it was made of.
-/

set_option autoImplicit false

namespace Analog

namespace Table

variable {κ α β τ : Type}

/-- What a table that is filled entry by entry holds, if no key comes twice. -/
theorem get_fold_iff [DecidableEq κ] {get : τ → κ → Option α} {insert : τ → κ → α → τ} {empty : τ}
    (getEmpty : ∀ key, get empty key = none)
    (getInsert : ∀ table key other value, get (insert table key value) other =
      if other = key then some value else get table other)
    (entries : List (κ × α)) (once : (entries.map Prod.fst).Nodup) (key : κ) (value : α) :
    get (entries.foldl (fun table entry => insert table entry.1 entry.2) empty) key = some value ↔
      (key, value) ∈ entries := by
  induction entries using List.reverseRecOn with
  | nil => simp [getEmpty]
  | append_singleton before last ih =>
      obtain ⟨lastKey, lastValue⟩ := last
      rw [List.map_append, List.nodup_append] at once
      obtain ⟨beforeOnce, _, apart⟩ := once
      rw [List.foldl_append]
      change get (insert _ lastKey lastValue) key = some value ↔ _
      rw [getInsert, List.mem_append, List.mem_singleton, Prod.mk.injEq]
      by_cases same : key = lastKey
      · subst same
        have absent : (key, value) ∉ before := fun member =>
          apart key (List.mem_map.2 ⟨_, member, rfl⟩) key (by simp) rfl
        simp [absent, eq_comm]
      · rw [if_neg same, ih beforeOnce]
        simp [same]

theorem related_of_entries {relation : α → β → Prop} {given : κ → Option α}
    {made : κ → Option β} {entries : List (κ × α)} {results : List (κ × β)}
    (givenIff : ∀ key value, (key, value) ∈ entries ↔ given key = some value)
    (madeIff : ∀ key value, made key = some value ↔ (key, value) ∈ results)
    (each : List.Forall₂ (fun entry result => result.1 = entry.1 ∧ relation entry.2 result.2)
      entries results) (key : κ) : Option.Rel relation (given key) (made key) := by
  cases found : given key with
  | none =>
      cases result : made key with
      | none => exact .none
      | some value =>
          obtain ⟨⟨entryKey, entryValue⟩, member, sameKey, _⟩ :=
            Outcome.source_of_mem each ((madeIff key value).1 result)
          obtain rfl : key = entryKey := sameKey
          rw [givenIff, found] at member
          cases member
  | some value =>
      obtain ⟨⟨resultKey, resultValue⟩, member, sameKey, related⟩ :=
        Outcome.target_of_mem each ((givenIff key value).2 found)
      obtain rfl : resultKey = key := sameKey
      rw [(madeIff _ _).2 member]
      exact .some related

end Table

namespace PerField

variable {α β : Type}

theorem get_insert (table : PerField α) (name other : FieldName) (value : α) :
    (table.insert name value).get? other = if other = name then some value else table.get? other := by
  cases name <;> cases other <;> rfl

@[simp] theorem get_empty (name : FieldName) : (empty : PerField α).get? name = none := by
  cases name <;> rfl

@[simp] theorem get_map (f : α → β) (table : PerField α) (name : FieldName) :
    (table.map f).get? name = (table.get? name).map f := by
  cases name <;> rfl

theorem mem_entries_iff (table : PerField α) (name : FieldName) (value : α) :
    (name, value) ∈ table.entries ↔ table.get? name = some value := by
  obtain ⟨detuning, amplitude, phase⟩ := table
  cases name <;> simp [entries, FieldName.all, get?]

theorem entries_once (table : PerField α) : (table.entries.map Prod.fst).Nodup := by
  obtain ⟨detuning, amplitude, phase⟩ := table
  cases detuning <;> cases amplitude <;> cases phase <;> simp [entries, FieldName.all, get?]

theorem get_of_entries_iff (entries : List (FieldName × α)) (once : (entries.map Prod.fst).Nodup)
    (name : FieldName) (value : α) :
    (ofEntries entries).get? name = some value ↔ (name, value) ∈ entries :=
  Table.get_fold_iff get_empty get_insert entries once name value

theorem related_of_entries {relation : α → β → Prop} (table : PerField α)
    {results : List (FieldName × β)}
    (each : List.Forall₂ (fun entry result => result.1 = entry.1 ∧ relation entry.2 result.2)
      table.entries results) (name : FieldName) :
    Option.Rel relation (table.get? name) ((ofEntries results).get? name) := by
  apply Table.related_of_entries table.mem_entries_iff (get_of_entries_iff results _) each
  rw [Outcome.map_eq_of_related each fun _ _ related => related.1]
  exact table.entries_once

theorem mapM_ok {work : α → Outcome β} {table : PerField α} {result : PerField β}
    (succeeds : table.mapM work = .ok result) (name : FieldName) :
    Option.Rel (fun given made => work given = .ok made) (table.get? name) (result.get? name) := by
  obtain ⟨results, each, made⟩ := (Outcome.bind_ok_iff _ _ _).1 succeeds
  rw [Outcome.pure_ok_iff] at made
  subst made
  apply related_of_entries
  rw [Outcome.mapM_ok_iff] at each
  refine each.imp fun entry result worked => ?_
  obtain ⟨value, valueOk, same⟩ := (Outcome.bind_ok_iff _ _ _).1 worked
  rw [Outcome.pure_ok_iff] at same
  subst same
  exact ⟨rfl, valueOk⟩

end PerField

namespace PerCoupling

variable {α β : Type}

theorem get_insert (table : PerCoupling α) (coupling other : Coupling) (value : α) :
    (table.insert coupling value).get? other =
      if other = coupling then some value else table.get? other := by
  cases coupling <;> cases other <;> rfl

@[simp] theorem get_empty (coupling : Coupling) :
    (empty : PerCoupling α).get? coupling = none := by
  cases coupling <;> rfl

@[simp] theorem get_map (f : α → β) (table : PerCoupling α) (coupling : Coupling) :
    (table.map f).get? coupling = (table.get? coupling).map f := by
  cases coupling <;> rfl

theorem mem_entries_iff (table : PerCoupling α) (coupling : Coupling) (value : α) :
    (coupling, value) ∈ table.entries ↔ table.get? coupling = some value := by
  obtain ⟨rydberg, hyperfine⟩ := table
  cases coupling <;> simp [entries, Coupling.all, get?]

theorem entries_once (table : PerCoupling α) : (table.entries.map Prod.fst).Nodup := by
  obtain ⟨rydberg, hyperfine⟩ := table
  cases rydberg <;> cases hyperfine <;> simp [entries, Coupling.all, get?]

theorem get_of_entries_iff (entries : List (Coupling × α)) (once : (entries.map Prod.fst).Nodup)
    (coupling : Coupling) (value : α) :
    (ofEntries entries).get? coupling = some value ↔ (coupling, value) ∈ entries :=
  Table.get_fold_iff get_empty get_insert entries once coupling value

theorem related_of_entries {relation : α → β → Prop} (table : PerCoupling α)
    {results : List (Coupling × β)}
    (each : List.Forall₂ (fun entry result => result.1 = entry.1 ∧ relation entry.2 result.2)
      table.entries results) (coupling : Coupling) :
    Option.Rel relation (table.get? coupling) ((ofEntries results).get? coupling) := by
  apply Table.related_of_entries table.mem_entries_iff (get_of_entries_iff results _) each
  rw [Outcome.map_eq_of_related each fun _ _ related => related.1]
  exact table.entries_once

theorem mapM_ok {work : α → Outcome β} {table : PerCoupling α} {result : PerCoupling β}
    (succeeds : table.mapM work = .ok result) (coupling : Coupling) :
    Option.Rel (fun given made => work given = .ok made) (table.get? coupling)
      (result.get? coupling) := by
  obtain ⟨results, each, made⟩ := (Outcome.bind_ok_iff _ _ _).1 succeeds
  rw [Outcome.pure_ok_iff] at made
  subst made
  apply related_of_entries
  rw [Outcome.mapM_ok_iff] at each
  refine each.imp fun entry result worked => ?_
  obtain ⟨value, valueOk, same⟩ := (Outcome.bind_ok_iff _ _ _).1 worked
  rw [Outcome.pure_ok_iff] at same
  subst same
  exact ⟨rfl, valueOk⟩

end PerCoupling

namespace Field

/-- What holds of drives and of sums under one modulation holds of all drives of their field. -/
theorem place_drive_each {good : Drive → Prop} {drive : Drive} {placed : List Drive}
    (summed : ∀ first second, good first → good second →
      first.target.same second.target = true →
      good ⟨first.target, .add first.waveform second.waveform⟩)
    (driveGood : good drive) (placedGood : ∀ other ∈ placed, good other) :
    ∀ other ∈ placeDrive drive placed, good other := by
  induction placed with
  | nil => simpa [placeDrive] using driveGood
  | cons head rest ih =>
      have headGood := placedGood head (by simp)
      have restGood : ∀ other ∈ rest, good other := fun other member =>
        placedGood other (by simp [member])
      unfold placeDrive
      split_ifs with same
      · exact List.forall_mem_cons.2 ⟨summed head drive headGood driveGood same, restGood⟩
      · exact List.forall_mem_cons.2 ⟨headGood, ih restGood⟩

theorem of_drives_each {good : Drive → Prop} {drives : List Drive}
    (summed : ∀ first second, good first → good second →
      first.target.same second.target = true →
      good ⟨first.target, .add first.waveform second.waveform⟩)
    (each : ∀ drive ∈ drives, good drive) : ∀ drive ∈ (ofDrives drives).drives, good drive := by
  induction drives using List.reverseRecOn with
  | nil => simp [ofDrives]
  | append_singleton before last ih =>
      unfold ofDrives at ih ⊢
      rw [List.foldl_append]
      exact place_drive_each summed (each last (by simp))
        (ih fun drive member => each drive (by simp [member]))

def Apart (drives : List Drive) : Prop :=
  drives.Pairwise fun first second => first.target.same second.target = false

theorem place_drive_targets {drive : Drive} {placed : List Drive} {other : Drive}
    (member : other ∈ placeDrive drive placed) :
    other.target = drive.target ∨ ∃ before ∈ placed, before.target = other.target := by
  induction placed with
  | nil =>
      rw [placeDrive, List.mem_singleton] at member
      exact Or.inl (by rw [member])
  | cons head rest ih =>
      unfold placeDrive at member
      split_ifs at member with same
      · rcases List.mem_cons.1 member with rfl | later
        · exact Or.inr ⟨head, by simp, rfl⟩
        · exact Or.inr ⟨other, by simp [later], rfl⟩
      · rcases List.mem_cons.1 member with rfl | later
        · exact Or.inr ⟨_, by simp, rfl⟩
        · rcases ih later with new | ⟨before, beforeMember, sameTarget⟩
          · exact Or.inl new
          · exact Or.inr ⟨before, by simp [beforeMember], sameTarget⟩

theorem place_drive_apart {drive : Drive} {placed : List Drive} (apart : Apart placed) :
    Apart (placeDrive drive placed) := by
  unfold Apart at apart ⊢
  induction placed with
  | nil => simp [placeDrive]
  | cons head rest ih =>
      obtain ⟨headApart, restApart⟩ := List.pairwise_cons.1 apart
      unfold placeDrive
      split_ifs with same
      · exact List.pairwise_cons.2 ⟨headApart, restApart⟩
      · refine List.pairwise_cons.2 ⟨fun other member => ?_, ih restApart⟩
        rcases place_drive_targets member with new | ⟨before, beforeMember, sameTarget⟩
        · rw [new]
          exact Bool.eq_false_iff.2 same
        · rw [← sameTarget]
          exact headApart before beforeMember

theorem of_drives_snoc (before : List Drive) (last : Drive) :
    (ofDrives (before ++ [last])).drives = placeDrive last (ofDrives before).drives := by
  unfold ofDrives
  rw [List.foldl_append]
  rfl

/-- The modulations of a field that is made of drives are told apart. -/
theorem of_drives_apart (drives : List Drive) : Apart (ofDrives drives).drives := by
  induction drives using List.reverseRecOn with
  | nil => exact List.Pairwise.nil
  | append_singleton before last ih =>
      rw [of_drives_snoc]
      exact place_drive_apart ih

/-- A drive is placed behind drives that are told apart from it. -/
theorem place_drive_after {drive : Drive} {kept : List Drive} (rest : List Drive)
    (different : ∀ other ∈ kept, other.target.same drive.target = false) :
    placeDrive drive (kept ++ rest) = kept ++ placeDrive drive rest := by
  induction kept with
  | nil => rfl
  | cons head others ih =>
      have headDifferent := different head (by simp)
      rw [List.cons_append, placeDrive, if_neg (by simp [headDifferent]),
        ih fun other member => different other (by simp [member])]
      rfl

/-- Drives with modulations that are apart are their own field. -/
theorem of_drives_of_apart (drives : List Drive) (apart : Apart drives) :
    (ofDrives drives).drives = drives := by
  induction drives using List.reverseRecOn with
  | nil => rfl
  | append_singleton before last ih =>
      rcases List.pairwise_append.1 apart with ⟨beforeApart, _, lastApart⟩
      have different : ∀ other ∈ before, other.target.same last.target = false :=
        fun other member => lastApart other member last (by simp)
      rw [of_drives_snoc, ih beforeApart]
      simpa [placeDrive] using place_drive_after [] different

/-- Drives that are apart, also from those that are added, stay as they are. -/
theorem of_drives_kept {kept : List Drive} (added : List Drive) (apart : Apart kept)
    (different : ∀ other ∈ added, ∀ drive ∈ kept, drive.target.same other.target = false) :
    ∃ rest, (ofDrives (kept ++ added)).drives = kept ++ rest := by
  induction added using List.reverseRecOn with
  | nil => exact ⟨[], by rw [List.append_nil, of_drives_of_apart kept apart]⟩
  | append_singleton before last ih =>
      rcases ih fun other member => different other (by simp [member]) with ⟨rest, same⟩
      refine ⟨placeDrive last rest, ?_⟩
      rw [← List.append_assoc, of_drives_snoc, same]
      exact place_drive_after rest (different last (by simp))

end Field

namespace PerField

variable {good better : Drive → Prop}

def EachDrive (good : Drive → Prop) (fields : PerField Field) : Prop :=
  ∀ name field, fields.get? name = some field → ∀ drive ∈ field.drives, good drive

def Drives (fields : PerField Field) (name : FieldName) : Prop :=
  ∃ field, fields.get? name = some field ∧ field.drives ≠ []

/-- A field of this name is there and has a drive with this modulation. -/
def Modulates (fields : PerField Field) (name : FieldName) (target : Modulation) : Prop :=
  ∃ field, fields.get? name = some field ∧ target ∈ field.targets

def Apart (fields : PerField Field) : Prop :=
  ∀ name field, fields.get? name = some field → Field.Apart field.drives

theorem drives_iff (fields : PerField Field) (name : FieldName) :
    fields.Drives name ↔ ∃ target, fields.Modulates name target := by
  constructor
  · rintro ⟨field, found, notEmpty⟩
    obtain ⟨drive, member⟩ := List.exists_mem_of_ne_nil _ notEmpty
    exact ⟨drive.target, field, found, List.mem_map.2 ⟨drive, member, rfl⟩⟩
  · rintro ⟨_, field, found, member⟩
    obtain ⟨drive, driveMember, _⟩ := List.mem_map.1 member
    exact ⟨field, found, List.ne_nil_of_mem driveMember⟩

theorem each_drive_empty : EachDrive good empty := by
  intro name field found
  simp at found

theorem not_drives_empty (name : FieldName) : ¬empty.Drives name := by
  simp [Drives]

theorem EachDrive.mono {fields : PerField Field} (each : EachDrive good fields)
    (weaker : ∀ drive, good drive → better drive) : EachDrive better fields :=
  fun name field found drive member => weaker drive (each name field found drive member)

end PerField

@[elab_as_elim]
theorem Pulse.parts_induction {motive : Pulse → Prop}
    (plain : ∀ fields, motive (.plain fields))
    (append : ∀ parts, (∀ part ∈ parts, motive part) → motive (.append parts))
    (slice : ∀ inner interval, motive inner → motive (.slice inner interval))
    (named : ∀ name inner, motive inner → motive (.named name inner))
    (pulse : Pulse) : motive pulse :=
  @Pulse.rec motive (fun parts => ∀ part ∈ parts, motive part) plain append slice named
    (fun _ member => absurd member List.not_mem_nil)
    (fun _ _ first rest part member =>
      (List.mem_cons.1 member).elim (fun same => same ▸ first) (rest part))
    pulse

@[elab_as_elim]
theorem Sequence.parts_induction {motive : Sequence → Prop}
    (plain : ∀ pulses, motive (.plain pulses))
    (append : ∀ parts, (∀ part ∈ parts, motive part) → motive (.append parts))
    (slice : ∀ inner interval, motive inner → motive (.slice inner interval))
    (named : ∀ name inner, motive inner → motive (.named name inner))
    (sequence : Sequence) : motive sequence :=
  @Sequence.rec motive (fun parts => ∀ part ∈ parts, motive part) plain append slice named
    (fun _ member => absurd member List.not_mem_nil)
    (fun _ _ first rest part member =>
      (List.mem_cons.1 member).elim (fun same => same ▸ first) (rest part))
    sequence

namespace Pulse

mutual

/-- All plain pulses inside, and the bounds of all slices, are as given. -/
def Each (onFields : PerField Field → Prop) (onBounds : Interval → Prop) : Pulse → Prop
  | .plain fields => onFields fields
  | .append parts => EachAll onFields onBounds parts
  | .slice inner interval => Each onFields onBounds inner ∧ onBounds interval
  | .named _ inner => Each onFields onBounds inner

def EachAll (onFields : PerField Field → Prop) (onBounds : Interval → Prop) : List Pulse → Prop
  | [] => True
  | part :: rest => Each onFields onBounds part ∧ EachAll onFields onBounds rest

end

variable {onFields otherFields : PerField Field → Prop} {onBounds otherBounds : Interval → Prop}

theorem each_all_iff (parts : List Pulse) :
    EachAll onFields onBounds parts ↔ ∀ part ∈ parts, part.Each onFields onBounds := by
  induction parts with
  | nil => simp [EachAll]
  | cons part rest ih => simp [EachAll, ih]

@[simp] theorem each_plain_iff (fields : PerField Field) :
    (plain fields).Each onFields onBounds ↔ onFields fields := Iff.rfl

@[simp] theorem each_append_iff (parts : List Pulse) :
    (append parts).Each onFields onBounds ↔ ∀ part ∈ parts, part.Each onFields onBounds :=
  each_all_iff parts

@[simp] theorem each_slice_iff (inner : Pulse) (interval : Interval) :
    (slice inner interval).Each onFields onBounds ↔
      inner.Each onFields onBounds ∧ onBounds interval := Iff.rfl

@[simp] theorem each_named_iff (name : String) (inner : Pulse) :
    (named name inner).Each onFields onBounds ↔ inner.Each onFields onBounds := Iff.rfl

theorem Each.mono (pulse : Pulse) (each : pulse.Each onFields onBounds)
    (fieldsWeaker : ∀ fields, onFields fields → otherFields fields)
    (boundsWeaker : ∀ interval, onBounds interval → otherBounds interval) :
    pulse.Each otherFields otherBounds := by
  induction pulse using Pulse.parts_induction with
  | plain fields => exact fieldsWeaker fields each
  | append parts ih =>
      rw [each_append_iff] at each ⊢
      exact fun part member => ih part member (each part member)
  | slice inner interval ih => exact ⟨ih each.1, boundsWeaker interval each.2⟩
  | named name inner ih => exact ih each

theorem Each.and (pulse : Pulse) (one : pulse.Each onFields onBounds)
    (other : pulse.Each otherFields otherBounds) :
    pulse.Each (fun fields => onFields fields ∧ otherFields fields)
      fun interval => onBounds interval ∧ otherBounds interval := by
  induction pulse using Pulse.parts_induction with
  | plain fields => exact ⟨one, other⟩
  | append parts ih =>
      rw [each_append_iff] at one other ⊢
      exact fun part member => ih part member (one part member) (other part member)
  | slice inner interval ih => exact ⟨ih one.1 other.1, one.2, other.2⟩
  | named name inner ih => exact ih one other

theorem mem_plains_all (parts : List Pulse) (fields : PerField Field) :
    fields ∈ plainsAll parts ↔ ∃ part ∈ parts, fields ∈ part.plains := by
  induction parts with
  | nil => simp [plainsAll]
  | cons part rest ih => simp [plainsAll, ih]

theorem Each.plains (pulse : Pulse) (each : pulse.Each onFields onBounds) :
    ∀ fields ∈ pulse.plains, onFields fields := by
  induction pulse using Pulse.parts_induction with
  | plain fields => simpa [Pulse.plains] using each
  | append parts ih =>
      intro fields found
      rw [Pulse.plains, mem_plains_all] at found
      obtain ⟨part, member, inside⟩ := found
      exact ih part member ((each_append_iff parts).1 each part member) fields inside
  | slice inner interval ih => exact ih each.1
  | named name inner ih => exact ih each

theorem each_of_plains (pulse : Pulse) (each : ∀ fields ∈ pulse.plains, onFields fields) :
    pulse.Each onFields fun _ => True := by
  induction pulse using Pulse.parts_induction with
  | plain fields => exact each fields (by simp [plains])
  | append parts ih =>
      rw [each_append_iff]
      intro part member
      refine ih part member fun fields found => each fields ?_
      rw [plains, mem_plains_all]
      exact ⟨part, member, found⟩
  | slice inner interval ih => exact ⟨ih each, trivial⟩
  | named name inner ih => exact ih each

end Pulse

namespace Sequence

mutual

/-- All plain sequences inside, and the bounds of all slices, are as given. -/
def Each (onPulses : PerCoupling Pulse → Prop) (onBounds : Interval → Prop) : Sequence → Prop
  | .plain pulses => onPulses pulses
  | .append parts => EachAll onPulses onBounds parts
  | .slice inner interval => Each onPulses onBounds inner ∧ onBounds interval
  | .named _ inner => Each onPulses onBounds inner

def EachAll (onPulses : PerCoupling Pulse → Prop) (onBounds : Interval → Prop) :
    List Sequence → Prop
  | [] => True
  | part :: rest => Each onPulses onBounds part ∧ EachAll onPulses onBounds rest

end

variable {onPulses otherPulses : PerCoupling Pulse → Prop} {onBounds otherBounds : Interval → Prop}

theorem each_all_iff (parts : List Sequence) :
    EachAll onPulses onBounds parts ↔ ∀ part ∈ parts, part.Each onPulses onBounds := by
  induction parts with
  | nil => simp [EachAll]
  | cons part rest ih => simp [EachAll, ih]

@[simp] theorem each_plain_iff (pulses : PerCoupling Pulse) :
    (plain pulses).Each onPulses onBounds ↔ onPulses pulses := Iff.rfl

@[simp] theorem each_append_iff (parts : List Sequence) :
    (append parts).Each onPulses onBounds ↔ ∀ part ∈ parts, part.Each onPulses onBounds :=
  each_all_iff parts

@[simp] theorem each_slice_iff (inner : Sequence) (interval : Interval) :
    (slice inner interval).Each onPulses onBounds ↔
      inner.Each onPulses onBounds ∧ onBounds interval := Iff.rfl

@[simp] theorem each_named_iff (name : String) (inner : Sequence) :
    (named name inner).Each onPulses onBounds ↔ inner.Each onPulses onBounds := Iff.rfl

theorem Each.mono (sequence : Sequence) (each : sequence.Each onPulses onBounds)
    (pulsesWeaker : ∀ pulses, onPulses pulses → otherPulses pulses)
    (boundsWeaker : ∀ interval, onBounds interval → otherBounds interval) :
    sequence.Each otherPulses otherBounds := by
  induction sequence using Sequence.parts_induction with
  | plain pulses => exact pulsesWeaker pulses each
  | append parts ih =>
      rw [each_append_iff] at each ⊢
      exact fun part member => ih part member (each part member)
  | slice inner interval ih => exact ⟨ih each.1, boundsWeaker interval each.2⟩
  | named name inner ih => exact ih each

theorem Each.and (sequence : Sequence) (one : sequence.Each onPulses onBounds)
    (other : sequence.Each otherPulses otherBounds) :
    sequence.Each (fun pulses => onPulses pulses ∧ otherPulses pulses)
      fun interval => onBounds interval ∧ otherBounds interval := by
  induction sequence using Sequence.parts_induction with
  | plain pulses => exact ⟨one, other⟩
  | append parts ih =>
      rw [each_append_iff] at one other ⊢
      exact fun part member => ih part member (one part member) (other part member)
  | slice inner interval ih => exact ⟨ih one.1 other.1, one.2, other.2⟩
  | named name inner ih => exact ih one other

theorem mem_plains_all (parts : List Sequence) (pulses : PerCoupling Pulse) :
    pulses ∈ plainsAll parts ↔ ∃ part ∈ parts, pulses ∈ part.plains := by
  induction parts with
  | nil => simp [plainsAll]
  | cons part rest ih => simp [plainsAll, ih]

theorem Each.plains (sequence : Sequence) (each : sequence.Each onPulses onBounds) :
    ∀ pulses ∈ sequence.plains, onPulses pulses := by
  induction sequence using Sequence.parts_induction with
  | plain pulses => simpa [Sequence.plains] using each
  | append parts ih =>
      intro pulses found
      rw [Sequence.plains, mem_plains_all] at found
      obtain ⟨part, member, inside⟩ := found
      exact ih part member ((each_append_iff parts).1 each part member) pulses inside
  | slice inner interval ih => exact ih each.1
  | named name inner ih => exact ih each

theorem each_of_plains (sequence : Sequence) (each : ∀ pulses ∈ sequence.plains, onPulses pulses) :
    sequence.Each onPulses fun _ => True := by
  induction sequence using Sequence.parts_induction with
  | plain pulses => exact each pulses (by simp [plains])
  | append parts ih =>
      rw [each_append_iff]
      intro part member
      refine ih part member fun pulses found => each pulses ?_
      rw [plains, mem_plains_all]
      exact ⟨part, member, found⟩
  | slice inner interval ih => exact ⟨ih each, trivial⟩
  | named name inner ih => exact ih each

end Sequence

def PerCoupling.EachPulse (good : Pulse → Prop) (pulses : PerCoupling Pulse) : Prop :=
  ∀ coupling pulse, pulses.get? coupling = some pulse → good pulse

end Analog
