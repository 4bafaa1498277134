import Analog.Proofs.BindingsInPlace
import Analog.Proofs.CompiledTasks
import Analog.Proofs.ComposedAssignments
import Analog.Proofs.RecordedValues

/-!
# Bound arguments

A routine that has been checked can always be bound: no argument and no parameter of a batch
takes the name of another. The bindings that come out bind exactly what the routine, the batch
and the arguments bind. They are made in a place of their own, and whatever stands in memory
before stays as it is.
-/

set_option autoImplicit false

namespace Analog

/-- Among entries of different names, a name is found with every value that it has. -/
theorem lookup_of_once {α : Type} {entries : List (String × α)}
    (once : (entries.map Prod.fst).Nodup) (name : String) (value : α) :
    entries.lookup name = some value ↔ (name, value) ∈ entries := by
  induction entries with
  | nil => simp
  | cons entry rest ih =>
      obtain ⟨key, first⟩ := entry
      obtain ⟨notLater, restOnce⟩ := List.nodup_cons.1 once
      rw [List.lookup_cons, List.mem_cons]
      by_cases same : name = key
      · subst same
        have absent : (name, value) ∉ rest := fun member =>
          notLater (List.mem_map.2 ⟨(name, value), member, rfl⟩)
        simp [absent, eq_comm]
      · have different : (name == key) = false := by simpa using same
        rw [different, ih restOnce]
        simp [same]

/-- If no two values are given, the one that is given comes out. -/
theorem or_eq_some_iff_of_apart {α : Type} {first second : Option α} {value : α}
    (apart : second = some value → first = none) :
    first.or second = some value ↔ first = some value ∨ second = some value := by
  rw [Option.or_eq_some_iff]
  constructor
  · exact Or.imp_right And.right
  · rintro (early | late)
    · exact Or.inl early
    · exact Or.inr ⟨apart late, late⟩

theorem NameMap.contains_iff_mem {α : Type} (map : NameMap α) (name : String) :
    map.contains name = true ↔ name ∈ map.entries.map Prod.fst := by
  constructor
  · intro bound
    by_contra absent
    rw [contains, find?, List.lookup_eq_none_iff.2] at bound
    · cases bound
    · intro entry member
      rw [bne_iff_ne]
      rintro rfl
      exact absent (List.mem_map_of_mem member)
  · intro member
    obtain ⟨entry, entryMember, rfl⟩ := List.mem_map.1 member
    exact Bindings.contains_of_mem entryMember

namespace Bindings

variable {first second merged : Bindings}

theorem bind_vector_ok_iff {bindings extended : Bindings} {name : String} {values : List Decimal} :
    bindings.bindVector name values = .ok extended ↔ bindings.has name = false ∧
      extended = { bindings with vectors := bindings.vectors.insert name values } := by
  unfold bindVector find? has NameMap.contains
  cases bindings.scalars.find? name with
  | some number => simp
  | none => cases bindings.vectors.find? name <;> simp [eq_comm]

theorem has_bound {bindings made : Bindings} {name : String} {value : Decimal}
    (bound : bindings.bind name value = .ok made) :
    bindings.has name = false ∧
      ∀ other, made.has other = true ↔ other = name ∨ bindings.has other = true := by
  obtain ⟨free, rfl⟩ := bind_ok_iff.1 bound
  refine ⟨free, fun other => ?_⟩
  by_cases same : other = name <;> simp [has, NameMap.contains, NameMap.find_insert, same]

theorem has_bound_vector {bindings made : Bindings} {name : String} {values : List Decimal}
    (bound : bindings.bindVector name values = .ok made) :
    bindings.has name = false ∧
      ∀ other, made.has other = true ↔ other = name ∨ bindings.has other = true := by
  obtain ⟨free, rfl⟩ := bind_vector_ok_iff.1 bound
  refine ⟨free, fun other => ?_⟩
  by_cases same : other = name <;> simp [has, NameMap.contains, NameMap.find_insert, same]

/-- Entries that have been bound one after the other have different names, which were free. -/
theorem names_of_bound {α : Type} (work : Bindings → String → α → Outcome Bindings)
    (works : ∀ bindings name value made, work bindings name value = .ok made →
      bindings.has name = false ∧
        ∀ other, made.has other = true ↔ other = name ∨ bindings.has other = true)
    {entries : List (String × α)} {base made : Bindings}
    (bound : entries.foldlM (fun bindings entry => work bindings entry.1 entry.2) base = .ok made) :
    (entries.map Prod.fst).Nodup ∧ (∀ name ∈ entries.map Prod.fst, base.has name = false) ∧
      ∀ name, made.has name = true ↔ name ∈ entries.map Prod.fst ∨ base.has name = true := by
  induction entries generalizing base with
  | nil =>
      rw [List.foldlM_nil, Outcome.pure_ok_iff] at bound
      subst bound
      simp
  | cons entry others ih =>
      rw [List.foldlM_cons] at bound
      obtain ⟨next, worked, remaining⟩ := (Outcome.bind_ok_iff _ _ _).1 bound
      obtain ⟨entryFree, nextHas⟩ := works _ _ _ _ worked
      obtain ⟨once, free, has⟩ := ih remaining
      have othersFree : ∀ name ∈ others.map Prod.fst, name ≠ entry.1 ∧ base.has name = false := by
        intro name member
        have both := mt (nextHas name).2 (by simp [free name member])
        rw [not_or, Bool.not_eq_true] at both
        exact both
      rw [List.map_cons]
      refine ⟨List.nodup_cons.2 ⟨fun member => (othersFree _ member).1 rfl, once⟩, ?_, ?_⟩
      · intro name member
        rcases List.mem_cons.1 member with rfl | later
        · exact entryFree
        · exact (othersFree name later).2
      · intro name
        rw [has, nextHas, List.mem_cons]
        tauto

theorem has_iff_mem (bindings : Bindings) (name : String) :
    bindings.has name = true ↔ name ∈ bindings.scalars.entries.map Prod.fst ∨
      name ∈ bindings.vectors.entries.map Prod.fst := by
  rw [has, Bool.or_eq_true, NameMap.contains_iff_mem, NameMap.contains_iff_mem]

theorem apart_of_merged (made : first.merge second = .ok merged) :
    first.Apart second ∧ merged.Unites first second := by
  obtain ⟨scalars, scalarsMade, vectorsMade⟩ := (Outcome.bind_ok_iff _ _ _).1 made
  obtain ⟨scalarsOnce, scalarsFree, scalarsHas⟩ :=
    names_of_bound Bindings.bind (fun _ _ _ _ => has_bound) scalarsMade
  obtain ⟨vectorsOnce, vectorsFree, _⟩ :=
    names_of_bound Bindings.bindVector (fun _ _ _ _ => has_bound_vector) vectorsMade
  have free : ∀ name ∈ second.vectors.entries.map Prod.fst,
      name ∉ second.scalars.entries.map Prod.fst ∧ first.has name = false := by
    intro name member
    have both := mt (scalarsHas name).2 (by simp [vectorsFree name member])
    rw [not_or, Bool.not_eq_true] at both
    exact both
  have apart : second.Apart first := by
    intro name bound
    rcases (has_iff_mem second name).1 bound with scalar | vector
    · exact scalarsFree name scalar
    · exact (free name vector).2
  have once : second.names.Nodup := by
    rw [names, (List.mergeSort_perm _ _).nodup_iff]
    exact List.nodup_append.2 ⟨scalarsOnce, vectorsOnce, fun name scalar other vector same =>
      (free other vector).1 (same ▸ scalar)⟩
  obtain ⟨union, unionMade, unites⟩ := merge_unites apart.symm once
  rw [made, Except.ok.injEq] at unionMade
  exact ⟨apart.symm, unionMade ▸ unites⟩

theorem Unites.scalar_iff (unites : merged.Unites first second) (apart : first.Apart second)
    (name : String) (value : Decimal) :
    merged.scalars.find? name = some value ↔
      first.scalars.find? name = some value ∨ second.scalars.find? name = some value := by
  rw [unites.scalars]
  exact or_eq_some_iff_of_apart apart.symm.scalars

theorem Unites.vector_iff (unites : merged.Unites first second) (apart : first.Apart second)
    (name : String) (values : List Decimal) :
    merged.vectors.find? name = some values ↔
      first.vectors.find? name = some values ∨ second.vectors.find? name = some values := by
  rw [unites.vectors]
  exact or_eq_some_iff_of_apart apart.symm.vectors

theorem Unites.has (unites : merged.Unites first second) (name : String) :
    merged.has name = (first.has name || second.has name) := by
  simp only [Bindings.has, NameMap.contains, unites.scalars, unites.vectors, Option.isSome_or]
  ac_rfl

end Bindings

namespace Routine

variable {routine accepted : Routine}

theorem check_arguments_ok {earlier names : List String}
    (checked : routine.checkArguments earlier names = .ok ()) :
    names.Nodup ∧ ∀ name ∈ names, name ∉ earlier ∧ routine.isBound name = false := by
  induction names generalizing earlier with
  | nil => exact ⟨List.nodup_nil, fun name member => absurd member List.not_mem_nil⟩
  | cons name rest ih =>
      unfold checkArguments at checked
      split_ifs at checked with repeated vector bound
      obtain ⟨once, free⟩ := ih checked
      have notEarlier : name ∉ earlier := by simpa using repeated
      refine ⟨List.nodup_cons.2 ⟨fun member => (free name member).1 List.mem_cons_self, once⟩, ?_⟩
      intro other member
      rcases List.mem_cons.1 member with rfl | later
      · exact ⟨notEarlier, Bool.not_eq_true _ ▸ bound⟩
      · exact ⟨fun early => (free other later).1 (List.mem_cons_of_mem _ early),
          (free other later).2⟩

theorem check_batches_ok {batch : Nat} {batches : List Bindings}
    (checked : routine.checkBatches batch batches = .ok ()) :
    ∀ own ∈ batches, ∃ merged, routine.static.merge own = .ok merged := by
  induction batches generalizing batch with
  | nil => exact fun own member => absurd member List.not_mem_nil
  | cons first rest ih =>
      obtain ⟨merged, mergedOk, remaining⟩ := (Outcome.bind_ok_iff _ _ _).1 checked
      intro own member
      rcases List.mem_cons.1 member with rfl | later
      · exact ⟨merged, (Outcome.in_context_ok_iff _ _ _).1 mergedOk⟩
      · exact ih remaining own later

theorem check_ok (checked : routine.check = .ok accepted) :
    routine.arguments.Nodup ∧ (∀ name ∈ routine.arguments, routine.isBound name = false) ∧
      ∀ own ∈ routine.batches, ∃ merged, routine.static.merge own = .ok merged := by
  obtain ⟨argumentsOk, remaining⟩ := (Outcome.check_ok_iff _ _ _).1 checked
  obtain ⟨batchesOk, _⟩ := (Outcome.check_ok_iff _ _ _).1 remaining
  obtain ⟨once, free⟩ := check_arguments_ok argumentsOk
  exact ⟨once, fun name member => (free name member).2, check_batches_ok batchesOk⟩

def shared (routine : Routine) (batch : Nat) : Outcome Bindings :=
  match routine.batches[batch]? with
  | some own => routine.static.merge own
  | none => pure routine.static

theorem bindings_eq {values : List Decimal} (each : values.length = routine.arguments.length)
    (batch : Nat) : routine.bindings batch values =
      routine.shared batch >>= fun bound => bindArguments bound (routine.arguments.zip values) := by
  rw [bindings, if_neg (not_not.2 each), shared]
  cases routine.batches[batch]? <;> rfl

def BindsScalar (routine : Routine) (batch : Nat) (name : String) (value : Decimal) : Prop :=
  routine.static.scalars.find? name = some value ∨
    ∃ own, routine.batches[batch]? = some own ∧ own.scalars.find? name = some value

def BindsVector (routine : Routine) (batch : Nat) (name : String) (values : List Decimal) : Prop :=
  routine.static.vectors.find? name = some values ∨
    ∃ own, routine.batches[batch]? = some own ∧ own.vectors.find? name = some values

theorem shared_ok (checked : routine.check = .ok accepted) (batch : Nat) :
    ∃ bound, routine.shared batch = .ok bound ∧
      (∀ name value, bound.scalars.find? name = some value ↔
        routine.BindsScalar batch name value) ∧
      (∀ name values, bound.vectors.find? name = some values ↔
        routine.BindsVector batch name values) ∧
      ∀ name, routine.isBound name = false → bound.has name = false := by
  unfold shared BindsScalar BindsVector isBound
  cases found : routine.batches[batch]? with
  | none =>
      refine ⟨routine.static, rfl, by simp, by simp, fun name free => ?_⟩
      exact (Bool.or_eq_false_iff.1 free).1
  | some own =>
      have member := List.mem_of_getElem? found
      obtain ⟨merged, mergedOk⟩ := (check_ok checked).2.2 own member
      obtain ⟨apart, unites⟩ := Bindings.apart_of_merged mergedOk
      refine ⟨merged, mergedOk, ?_, ?_, fun name free => ?_⟩
      · simpa using unites.scalar_iff apart
      · simpa using unites.vector_iff apart
      · obtain ⟨staticFree, batchesFree⟩ := Bool.or_eq_false_iff.1 free
        have ownFree := List.any_eq_false.1 batchesFree own member
        rw [unites.has, staticFree, Bool.false_or]
        simpa using ownFree

/-- Arguments of different free names are bound beside what is bound already. -/
theorem bind_arguments_ok {bound : Bindings} {pairs : List (String × Decimal)}
    (once : (pairs.map Prod.fst).Nodup) (free : ∀ pair ∈ pairs, bound.has pair.1 = false) :
    ∃ made, bindArguments bound pairs = .ok made ∧ made.vectors = bound.vectors ∧
      ∀ name value, made.scalars.find? name = some value ↔
        (name, value) ∈ pairs ∨ bound.scalars.find? name = some value := by
  obtain ⟨made, ran, vectors, found, _⟩ := Bindings.bind_entries Bindings.scalars Bindings.vectors
    Bindings.bind (fun _ _ value => Bindings.bind_free value)
    (fun _ _ => Bindings.no_scalar_of_free) pairs once bound free
  refine ⟨made, ran, vectors, fun name value => ?_⟩
  have unbound : pairs.lookup name = some value → bound.scalars.find? name = none := fun argument =>
    Bindings.no_scalar_of_free (free _ ((lookup_of_once once name value).1 argument))
  rw [found, or_eq_some_iff_of_apart unbound, lookup_of_once once, or_comm]

end Routine

/-- The bindings of a routine stand in a memory. -/
structure StoredRoutine.Holds (stored : StoredRoutine) (memory : Memory) (routine : Routine) :
    Prop where
  static : memory.read? stored.static = some routine.static
  batches : List.Forall₂ (fun place own => memory.read? place = some own)
    stored.batches routine.batches
  arguments : stored.arguments = routine.arguments

namespace StoredRoutine.Holds

variable {stored : StoredRoutine} {memory after : Memory} {routine : Routine}

theorem kept (holds : stored.Holds memory routine) (keeps : memory.Keeps after) :
    stored.Holds after routine where
  static := keeps _ _ holds.static
  batches := holds.batches.imp fun place own => keeps place own
  arguments := holds.arguments

theorem makes_shared (holds : stored.Holds memory routine) (batch : Nat) :
    InPlace.Makes memory (stored.shared batch) (routine.shared batch) := by
  obtain ⟨sameLength, found⟩ := List.forall₂_iff_get.1 holds.batches
  unfold StoredRoutine.shared Routine.shared
  by_cases inside : batch < routine.batches.length
  · have storedInside : batch < stored.batches.length := sameLength ▸ inside
    rw [List.getElem?_eq_getElem inside, List.getElem?_eq_getElem storedInside]
    exact InPlace.makes_merge holds.static (found batch storedInside inside)
  · have storedOutside : ¬batch < stored.batches.length := sameLength ▸ inside
    rw [List.getElem?_eq_none (not_lt.1 inside), List.getElem?_eq_none (not_lt.1 storedOutside)]
    exact InPlace.makes_clone holds.static

/-- The bindings of a batch that are made in memory are those of the routine. -/
theorem makes_bindings (holds : stored.Holds memory routine) (batch : Nat) (values : List Decimal) :
    InPlace.Makes memory (stored.bindings batch values) (routine.bindings batch values) := by
  unfold StoredRoutine.bindings
  rw [holds.arguments]
  by_cases each : values.length = routine.arguments.length
  · rw [Routine.bindings_eq each, if_neg (not_not.2 each)]
    exact (holds.makes_shared batch).perform
      (fun bound => (routine.arguments.zip values).forM fun pair =>
        bound.update (·.bind pair.1 pair.2))
      (InPlace.performs_each _ fun pair => InPlace.performs_update memory (·.bind pair.1 pair.2))
  · rw [Routine.bindings, if_pos each, if_pos each]
    refine ⟨fun made impossible => (nomatch impossible), fun failure same => ?_⟩
    cases same
    exact ⟨memory, rfl, fun _ _ found => found⟩

end StoredRoutine.Holds

/-- A routine that has been checked has bindings for every batch and as many arguments as it
names. They bind what the arguments, the routine and the batch bind, and no other name. Made in
memory they have a place of their own, and the bindings of the routine stay as they are. A number
of no batch stands for the bindings that all batches share. -/
theorem Routine.checked_routine_binds (routine : Routine) (batch : Nat) (values : List Decimal)
    (checked : routine.check = .ok routine) (each : values.length = routine.arguments.length) :
    ∃ bound, routine.bindings batch values = .ok bound ∧
      (∀ name value, bound.scalars.find? name = some value ↔
        (name, value) ∈ routine.arguments.zip values ∨ routine.BindsScalar batch name value) ∧
      (∀ name numbers, bound.vectors.find? name = some numbers ↔
        routine.BindsVector batch name numbers) ∧
      ∀ (stored : StoredRoutine) (memory : Memory), stored.Holds memory routine →
        ∃ place after, (stored.bindings batch values).on memory = (.ok place, after) ∧
          after.read? place = some bound ∧ stored.Holds after routine ∧ memory.Keeps after := by
  obtain ⟨once, free, _⟩ := check_ok checked
  obtain ⟨shared, sharedOk, scalars, vectors, sharedFree⟩ := shared_ok checked batch
  have names : (routine.arguments.zip values).map Prod.fst = routine.arguments :=
    List.map_fst_zip (le_of_eq each.symm)
  have pairsFree : ∀ pair ∈ routine.arguments.zip values, shared.has pair.1 = false := by
    intro pair member
    exact sharedFree pair.1 (free pair.1 (names ▸ List.mem_map_of_mem member))
  obtain ⟨bound, boundOk, sameVectors, boundScalars⟩ :=
    bind_arguments_ok (names.symm ▸ once) pairsFree
  have made : routine.bindings batch values = .ok bound := by
    rw [bindings_eq each, sharedOk]
    exact boundOk
  refine ⟨bound, made, fun name value => ?_, fun name numbers => ?_, fun stored memory holds => ?_⟩
  · rw [boundScalars, scalars]
  · rw [sameVectors, vectors]
  · have keeps := memory.keeps_push bound
    exact ⟨memory.next, memory.push bound, (holds.makes_bindings batch values).works bound made,
      memory.read_next bound, holds.kept keeps, keeps⟩

/-- A ramp with weights. It lasts as long in both batches, each batch has its start, and the end is
an argument. -/
def rampInBatches : Routine where
  circuit := ⟨.plain (.chain 2 1), .plain ⟨some (.plain ⟨some ⟨[⟨.vector "weights",
    .ramp (.variable "low") (.variable "high") (.variable "time")⟩]⟩, none, none⟩), none⟩⟩
  static := ⟨⟨[("time", 2)]⟩, ⟨[("weights", [1, 3])]⟩⟩
  batches := [⟨⟨[("low", 0)]⟩, .empty⟩, ⟨⟨[("low", 5)]⟩, .empty⟩]
  arguments := ["high"]

def sharedMaps : Memory :=
  ⟨[⟨[("time", 2)]⟩, ⟨[("low", 0)]⟩, ⟨[("low", 5)]⟩], [⟨[("weights", [1, 3])]⟩, .empty]⟩

def storedRamp : StoredRoutine := ⟨⟨0, 0⟩, [⟨1, 1⟩, ⟨2, 1⟩], ["high"]⟩

theorem ramp_in_batches_checked : rampInBatches.check = .ok rampInBatches := by
  rfl

theorem ramp_in_batches_held : storedRamp.Holds sharedMaps rampInBatches where
  static := rfl
  batches := .cons rfl (.cons rfl .nil)
  arguments := rfl

theorem ramp_in_batches_bound :
    rampInBatches.check = .ok rampInBatches ∧
      ([9] : List Decimal).length = rampInBatches.arguments.length ∧
      storedRamp.Holds sharedMaps rampInBatches ∧
      ∃ bound, rampInBatches.bindings 1 [9] = .ok bound ∧
        bound.scalars.find? "high" = some 9 ∧ bound.scalars.find? "low" = some 5 ∧
        bound.scalars.find? "time" = some 2 ∧ bound.vectors.find? "weights" = some [1, 3] ∧
        ∃ place after, (storedRamp.bindings 1 [9]).on sharedMaps = (.ok place, after) ∧
          after.read? place = some bound ∧ storedRamp.Holds after rampInBatches := by
  obtain ⟨bound, boundOk, scalars, vectors, stored⟩ :=
    Routine.checked_routine_binds rampInBatches 1 [9] ramp_in_batches_checked rfl
  obtain ⟨place, after, bindingsOn, read, holds, _⟩ := stored _ _ ramp_in_batches_held
  refine ⟨ramp_in_batches_checked, rfl, ramp_in_batches_held, bound, boundOk, ?_, ?_, ?_, ?_,
    place, after, bindingsOn, read, holds⟩
  · exact (scalars _ _).2 (Or.inl (by decide))
  · exact (scalars _ _).2 (Or.inr (Or.inr ⟨_, rfl, rfl⟩))
  · exact (scalars _ _).2 (Or.inr (Or.inl rfl))
  · exact (vectors _ _).2 (Or.inl rfl)

end Analog
