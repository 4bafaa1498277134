import Analog.Proofs.ChannelEquality
import Analog.Proofs.SubstitutedNodes
import Analog.Proofs.WaveformEquality

/-!
# Composed assignments

Bindings that have no name in common can be assigned one after the other, in either order,
or at once: either all three ways give the same node, or all three report a conflict of
names. They do so exactly if some value that the node has already is bound again. Merging
bindings gives such a union.
-/

set_option autoImplicit false

namespace Analog

variable {first second : Bindings}

/-- A field whose modulations are apart finds each of its drives under its own modulation. -/
theorem Field.same_self {field : Field} (apart : Apart field.drives) :
    field.same field = true := by
  rw [Field.same, beq_self_eq_true, Bool.true_and, List.all_eq_true]
  intro drive member
  rw [lookup?, find_of_apart apart member, Option.map_some, Option.any_some,
    Waveform.same_refl]

namespace Pulse

theorem same_substituted (bindings : Bindings) (pulse : Pulse) :
    (pulse.substitute bindings).same (pulse.substitute bindings) = true := by
  induction pulse using Pulse.parts_induction with
  | plain fields =>
      rw [substitute, Pulse.same, sameFields, List.all_eq_true]
      intro name _
      rw [PerField.get_map]
      cases fields.get? name with
      | none => rfl
      | some field => exact Field.same_self (Field.of_drives_apart _)
  | append parts ih =>
      rw [substitute, substitute_all_eq_map, Pulse.same]
      induction parts with
      | nil => rfl
      | cons part rest restIh =>
          rw [List.map_cons, sameAll, ih part (by simp),
            restIh fun other member => ih other (by simp [member]), Bool.and_self]
  | slice inner interval ih => rw [substitute, Pulse.same, Interval.same_refl, ih, Bool.and_self]
  | named name inner ih => rw [substitute, Pulse.same, beq_self_eq_true, ih, Bool.and_self]

end Pulse

namespace Sequence

theorem same_substituted (bindings : Bindings) (sequence : Sequence) :
    (sequence.substitute bindings).same (sequence.substitute bindings) = true := by
  induction sequence using Sequence.parts_induction with
  | plain pulses =>
      rw [substitute, Sequence.same, samePulses, List.all_eq_true]
      intro coupling _
      rw [PerCoupling.get_map]
      cases pulses.get? coupling with
      | none => rfl
      | some pulse => exact pulse.same_substituted bindings
  | append parts ih =>
      rw [substitute, substitute_all_eq_map, Sequence.same]
      induction parts with
      | nil => rfl
      | cons part rest restIh =>
          rw [List.map_cons, sameAll, ih part (by simp),
            restIh fun other member => ih other (by simp [member]), Bool.and_self]
  | slice inner interval ih =>
      rw [substitute, Sequence.same, Interval.same_refl, ih, Bool.and_self]
  | named name inner ih => rw [substitute, Sequence.same, beq_self_eq_true, ih, Bool.and_self]

end Sequence

theorem Node.same_substituted (bindings : Bindings) (node : Node) :
    (node.substitute bindings).same (node.substitute bindings) = true := by
  cases node with
  | scalar value => exact Scalar.same_refl _
  | waveform value => exact Waveform.same_refl _
  | modulation value => exact Modulation.same_refl _
  | field value => exact Field.same_self (Field.of_drives_apart _)
  | pulse value => exact value.same_substituted bindings
  | sequence value => exact value.same_substituted bindings
  | circuit value =>
      rw [substitute, Node.same, Circuit.same, beq_self_eq_true, Bool.true_and]
      exact value.sequence.same_substituted bindings
  | register value => exact beq_self_eq_true value
  | series value =>
      cases value <;> simp [substitute, Node.same, Series.same, LinearSeries.same, ConstantSeries.same]

namespace Bindings

/-- Names that are free and all different can be bound one after the other. -/
theorem bind_entries {α β : Type} (get : Bindings → NameMap α) (rest : Bindings → NameMap β)
    (work : Bindings → String → α → Outcome Bindings)
    (works : ∀ bindings name value, bindings.has name = false →
      ∃ made, work bindings name value = .ok made ∧ rest made = rest bindings ∧
        (∀ other, (get made).find? other =
          if other = name then some value else (get bindings).find? other) ∧
        ∀ other, other ≠ name → made.has other = bindings.has other)
    (unbound : ∀ bindings name, bindings.has name = false → (get bindings).find? name = none)
    (entries : List (String × α)) (once : (entries.map Prod.fst).Nodup) (base : Bindings)
    (free : ∀ entry ∈ entries, base.has entry.1 = false) :
    ∃ made, entries.foldlM (fun bindings entry => work bindings entry.1 entry.2) base = .ok made ∧
      rest made = rest base ∧
      (∀ name, (get made).find? name = ((get base).find? name).or (entries.lookup name)) ∧
      ∀ name, name ∉ entries.map Prod.fst → made.has name = base.has name := by
  induction entries generalizing base with
  | nil => exact ⟨base, rfl, rfl, fun name => by simp, fun _ _ => rfl⟩
  | cons entry others ih =>
      obtain ⟨name, value⟩ := entry
      obtain ⟨notLater, othersOnce⟩ := List.nodup_cons.1 once
      have nameFree := free (name, value) (by simp)
      obtain ⟨next, worked, sameRest, found, has⟩ := works base name value nameFree
      have othersFree : ∀ entry ∈ others, next.has entry.1 = false := by
        intro entry member
        rw [has entry.1 (by rintro rfl; exact notLater (List.mem_map.2 ⟨entry, member, rfl⟩))]
        exact free entry (by simp [member])
      obtain ⟨made, ran, madeRest, madeFound, madeHas⟩ := ih othersOnce next othersFree
      refine ⟨made, ?_, madeRest.trans sameRest, fun other => ?_, fun other absent => ?_⟩
      · rw [List.foldlM_cons, worked]
        exact ran
      · rw [madeFound, found, List.lookup_cons]
        by_cases same : other = name
        · subst same
          simp [unbound base other nameFree]
        · have different : (other == name) = false := by simpa using same
          rw [if_neg same, different]
      · rw [List.map_cons, List.mem_cons, not_or] at absent
        rw [madeHas other absent.2, has other absent.1]

theorem no_scalar_of_free {bindings : Bindings} {name : String}
    (free : bindings.has name = false) : bindings.scalars.find? name = none := by
  rw [has, Bool.or_eq_false_iff] at free
  exact Option.isNone_iff_eq_none.1 (Option.isSome_eq_false_iff.1 free.1)

theorem no_vector_of_free {bindings : Bindings} {name : String}
    (free : bindings.has name = false) : bindings.vectors.find? name = none := by
  rw [has, Bool.or_eq_false_iff] at free
  exact Option.isNone_iff_eq_none.1 (Option.isSome_eq_false_iff.1 free.2)

theorem find_of_free {bindings : Bindings} {name : String} (free : bindings.has name = false) :
    bindings.find? name = none := by
  rw [find?, no_scalar_of_free free, no_vector_of_free free]
  rfl

theorem bind_free {bindings : Bindings} {name : String} (value : Decimal)
    (free : bindings.has name = false) :
    ∃ made, bindings.bind name value = .ok made ∧ made.vectors = bindings.vectors ∧
      (∀ other, made.scalars.find? other =
        if other = name then some value else bindings.scalars.find? other) ∧
      ∀ other, other ≠ name → made.has other = bindings.has other := by
  refine ⟨{ bindings with scalars := bindings.scalars.insert name value }, ?_, rfl,
    fun other => NameMap.find_insert _ _ _ _, fun other different => ?_⟩
  · rw [bind, find_of_free free]
  · simp [has, NameMap.contains, NameMap.find_insert, different]

theorem bind_vector_free {bindings : Bindings} {name : String} (values : List Decimal)
    (free : bindings.has name = false) :
    ∃ made, bindings.bindVector name values = .ok made ∧ made.scalars = bindings.scalars ∧
      (∀ other, made.vectors.find? other =
        if other = name then some values else bindings.vectors.find? other) ∧
      ∀ other, other ≠ name → made.has other = bindings.has other := by
  refine ⟨{ bindings with vectors := bindings.vectors.insert name values }, ?_, rfl,
    fun other => NameMap.find_insert _ _ _ _, fun other different => ?_⟩
  · rw [bindVector, find_of_free free]
  · simp [has, NameMap.contains, NameMap.find_insert, different]

theorem contains_of_mem {α : Type} {map : NameMap α} {entry : String × α}
    (member : entry ∈ map.entries) : map.contains entry.1 = true := by
  rw [NameMap.contains, NameMap.find?, Option.isSome_iff_ne_none, Ne, List.lookup_eq_none_iff]
  intro absent
  exact absurd (absent entry member) (by simp)

/-- Bindings that are apart can be merged if the second binds no name twice. -/
theorem merge_unites (apart : first.Apart second) (once : second.names.Nodup) :
    ∃ merged, first.merge second = .ok merged ∧ merged.Unites first second := by
  rw [names, (List.mergeSort_perm _ _).nodup_iff, List.nodup_append] at once
  obtain ⟨scalarsOnce, vectorsOnce, sortsApart⟩ := once
  have scalarsFree : ∀ entry ∈ second.scalars.entries, first.has entry.1 = false := by
    intro entry member
    apply apart.symm
    rw [has, contains_of_mem member, Bool.true_or]
  obtain ⟨scalars, scalarsMade, sameVectors, scalarsFound, scalarsHas⟩ :=
    bind_entries Bindings.scalars Bindings.vectors Bindings.bind
      (fun _ _ value => bind_free value) (fun _ _ => no_scalar_of_free)
      second.scalars.entries scalarsOnce first scalarsFree
  have vectorsFree : ∀ entry ∈ second.vectors.entries, scalars.has entry.1 = false := by
    intro entry member
    rw [scalarsHas entry.1 fun early =>
      sortsApart entry.1 early entry.1 (List.mem_map_of_mem member) rfl]
    apply apart.symm
    rw [has, contains_of_mem member, Bool.or_true]
  obtain ⟨merged, mergedMade, sameScalars, vectorsFound, _⟩ :=
    bind_entries Bindings.vectors Bindings.scalars Bindings.bindVector
      (fun _ _ values => bind_vector_free values) (fun _ _ => no_vector_of_free)
      second.vectors.entries vectorsOnce scalars vectorsFree
  refine ⟨merged, ?_, ?_, ?_⟩
  · rw [merge, scalarsMade]
    exact mergedMade
  · intro name
    rw [sameScalars, scalarsFound]
    rfl
  · intro name
    rw [vectorsFound, sameVectors]
    rfl

end Bindings

open Outcome

/-- Assignments compose and commute. Under bindings that are apart, assigning one and then the
other, in either order, and assigning their union all succeed, or all give a conflict of names;
and they conflict exactly if a variable that has its value is bound again as a scalar, or a vector
that has its values as a vector. They give the same node if no modulation has sites so far apart
that their difference wraps. If the second bindings have every name once, merging gives a union. -/
theorem assignments_compose (node : Node) (first second union : Bindings)
    (apart : first.Apart second) (united : union.Unites first second) :
    ((∀ entry ∈ node.assignments, union.rebinds entry = false) ∧
        (∃ forth back once, (node.assign first >>= Node.assign second) = .ok forth ∧
          (node.assign second >>= Node.assign first) = .ok back ∧
          node.assign union = .ok once ∧
          (node.SitesNear → forth = once ∧ back = once ∧ once.same once = true)) ∨
      (∃ entry ∈ node.assignments, union.rebinds entry = true) ∧
        Conflicts (node.assign first >>= Node.assign second) ∧
        Conflicts (node.assign second >>= Node.assign first) ∧ Conflicts (node.assign union)) ∧
    (second.names.Nodup → ∃ merged, first.merge second = .ok merged ∧
      merged.Unites first second) := by
  have forth := node.assign_assign_guarded united apart
  have back := node.assign_assign_guarded (united.symm apart) apart.symm
  have once := node.assign_guarded union
  refine ⟨?_, Bindings.merge_unites apart⟩
  by_cases spared : union.Spares node.assignments
  · refine Or.inl ⟨spared, _, _, _, forth.succeeds spared, back.succeeds spared,
      once.succeeds spared, fun near => ?_⟩
    obtain ⟨firstSpared, secondSpared⟩ := united.spares_iff.1 spared
    exact ⟨node.substitute_substitute united apart near secondSpared,
      node.substitute_substitute (united.symm apart) apart.symm near firstSpared,
      node.same_substituted union⟩
  · refine Or.inr ⟨?_, forth.conflicts spared, back.conflicts spared, once.conflicts spared⟩
    simpa [Bindings.Spares] using spared

/-- A field on a vector and on a listed site, with two variables and one that has its value. -/
def twoSteps : Field :=
  ⟨[⟨.vector "v", .constant (.minimum [.variable "x", .variable "y"]) (.assigned "t" 1)⟩,
    ⟨.scaled [⟨0, .variable "x"⟩], .constant (.variable "y") (.assigned "t" 1)⟩]⟩

def allSteps : Field :=
  ⟨[⟨.assignedVector "v" [1, 2],
      .constant (.min [.assigned "x" 3, .assigned "y" 4]) (.assigned "t" 1)⟩,
    ⟨.scaled [⟨0, .assigned "x" 3⟩], .constant (.assigned "y" 4) (.assigned "t" 1)⟩]⟩

def firstStep : Bindings := ⟨⟨[("x", 3)]⟩, .empty⟩

def secondStep : Bindings := ⟨⟨[("y", 4)]⟩, ⟨[("v", [1, 2])]⟩⟩

def bothSteps : Bindings := ⟨⟨[("x", 3), ("y", 4)]⟩, ⟨[("v", [1, 2])]⟩⟩

theorem assignments_compose_two_steps :
    ((Node.field twoSteps).assign firstStep >>= Node.assign secondStep) = .ok (.field allSteps) ∧
      ((Node.field twoSteps).assign secondStep >>= Node.assign firstStep) = .ok (.field allSteps) ∧
      (Node.field twoSteps).assign bothSteps = .ok (.field allSteps) ∧
      (Node.field allSteps).same (.field allSteps) = true ∧
      Conflicts ((Node.field allSteps).assign bothSteps) := by
  have apart : firstStep.Apart secondStep := by
    intro name bound
    by_cases same : name = "x"
    · subst same
      rfl
    · have different : (name == "x") = false := by simpa using same
      simp [Bindings.has, firstStep, NameMap.contains, NameMap.find?, NameMap.empty,
        List.lookup_cons, different] at bound
  have united : bothSteps.Unites firstStep secondStep := by
    refine ⟨fun name => ?_, fun name => rfl⟩
    change List.lookup name [("x", (3 : Decimal)), ("y", 4)] =
      (List.lookup name [("x", 3)]).or (List.lookup name [("y", 4)])
    simp only [List.lookup_cons]
    cases name == "x" <;> rfl
  have made : (Node.field twoSteps).assign bothSteps = .ok (.field allSteps) := rfl
  have near : (Node.field twoSteps).SitesNear := by
    refine List.forall_mem_cons.2 ⟨trivial, List.forall_mem_singleton.2 ?_⟩
    exact Modulation.near_of_small (by decide)
  obtain ⟨⟨_, result, other, all, forth, back, once, same⟩ | ⟨_, _, _, _, _, _, conflict⟩, _⟩ :=
    assignments_compose (.field twoSteps) firstStep secondStep bothSteps apart united
  · obtain ⟨rfl, rfl, equal⟩ := same near
    rw [made, Except.ok.injEq] at once
    subst once
    obtain ⟨⟨spared, _⟩ | ⟨_, _, _, conflict⟩, _⟩ :=
      assignments_compose (.field allSteps) firstStep secondStep bothSteps apart united
    · exact absurd (spared ("x", .scalar 3) (by simp [Node.assignments, allSteps,
        Field.assignments, Drive.assignments, Modulation.assignments, Scalar.assignments,
        Scalar.occurrences])) (by decide)
    · exact ⟨forth, back, made, equal, conflict⟩
  · rw [made] at conflict
    cases conflict

def halfApart : Field :=
  ⟨[⟨.ofLocations [⟨0, .variable "x"⟩, ⟨9223372036854775808, .variable "y"⟩],
    .constant (.literal 1) (.literal 1)⟩]⟩

/-- Every step turns the sites round, so two steps and one step do not give the same field. -/
theorem two_steps_reorder :
    ∃ forth once,
      ((Node.field halfApart).assign ⟨.ofList [("x", 1)], .empty⟩ >>=
        Node.assign ⟨.ofList [("y", 2)], .empty⟩) = .ok forth ∧
      (Node.field halfApart).assign ⟨.ofList [("x", 1), ("y", 2)], .empty⟩ = .ok once ∧
      forth.same once = false :=
  ⟨_, _, rfl, rfl, rfl⟩

end Analog
