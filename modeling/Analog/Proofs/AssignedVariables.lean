import Analog.Proofs.FormedNodes

/-!
# Variables of assigned nodes

Assigning bindings takes the bound names away from the free variables of a node, and leaves
all others in the order of their first use. The scan subtracts the variables of records, and
assignment dissolves the records of bound variables, so that a name which was subtracted
before is still subtracted if it is still used. Nodes are as their constructors make them, so
that assignment, which builds every node anew, merges no parts that were apart before.
-/

set_option autoImplicit false

namespace Analog

namespace NameMap

variable {α : Type}

def missing (map : NameMap α) (names : List String) : List String :=
  names.filter fun name => !map.contains name

theorem missing_append (map : NameMap α) (before after : List String) :
    map.missing (before ++ after) = map.missing before ++ map.missing after :=
  List.filter_append ..

theorem missing_eq_nil_iff (map : NameMap α) (names : List String) :
    map.missing names = [] ↔ ∀ name ∈ names, map.contains name = true := by
  simp [missing]

end NameMap

namespace Variables

@[simp] theorem append_empty (used : Variables) : used ++ ({} : Variables) = used :=
  (Variables.mk.injEq ..).mpr ⟨List.append_nil _, List.append_nil _, List.append_nil _,
    List.append_nil _⟩

@[simp] theorem empty_append (used : Variables) : ({} : Variables) ++ used = used := rfl

theorem append_assoc (first second third : Variables) :
    first ++ second ++ third = first ++ (second ++ third) :=
  (Variables.mk.injEq ..).mpr ⟨List.append_assoc .., List.append_assoc .., List.append_assoc ..,
    List.append_assoc ..⟩

theorem join_cons (part : Variables) (rest : List Variables) :
    join (part :: rest) = part ++ join rest := rfl

theorem join_append (before after : List Variables) :
    join (before ++ after) = join before ++ join after := by
  induction before with
  | nil => rfl
  | cons part rest ih => rw [List.cons_append, join_cons, join_cons, ih, append_assoc]

theorem join_flatMap {α : Type} (items : List α) (parts : α → List Variables) :
    join (items.flatMap parts) = join (items.map fun item => join (parts item)) := by
  induction items with
  | nil => rfl
  | cons item rest ih => rw [List.flatMap_cons, join_append, ih, List.map_cons, join_cons]

/-- Dropping repeated names commutes with dropping some names altogether. -/
theorem distinct_names_filter (keep : String → Bool) (names : List String) :
    distinctNames (names.filter keep) = (distinctNames names).filter keep := by
  induction names using List.reverseRecOn with
  | nil => rfl
  | append_singleton before last ih =>
      unfold distinctNames at ih ⊢
      rw [List.filter_append, List.foldl_append, List.foldl_append, ih]
      simp only [List.foldl_cons, List.foldl_nil, List.filter_cons, List.filter_nil]
      cases kept : keep last with
      | true =>
          simp only [if_true, List.foldl_cons, List.foldl_nil, List.contains_eq_mem,
            List.mem_filter, kept, and_true]
          split_ifs
          · rfl
          · rw [List.filter_append, List.filter_singleton, kept]
            rfl
      | false =>
          simp only [Bool.false_eq_true, if_false, List.foldl_nil]
          split_ifs
          · rfl
          · rw [List.filter_append, List.filter_singleton, kept]
            simp

/-- Of each role, the names without a binding are left. -/
structure Left (bindings : Bindings) (given left : Variables) : Prop where
  scalars : left.scalars = bindings.scalars.missing given.scalars
  vectors : left.vectors = bindings.vectors.missing given.vectors
  recorded : left.recorded = bindings.scalars.missing given.recorded

variable {bindings : Bindings}

theorem Left.empty : Left bindings {} {} := ⟨rfl, rfl, rfl⟩

theorem Left.append {before before' after after' : Variables} (early : Left bindings before before')
    (late : Left bindings after after') : Left bindings (before ++ after) (before' ++ after') where
  scalars := (congrArg₂ _ early.scalars late.scalars).trans (NameMap.missing_append ..).symm
  vectors := (congrArg₂ _ early.vectors late.vectors).trans (NameMap.missing_append ..).symm
  recorded := (congrArg₂ _ early.recorded late.recorded).trans (NameMap.missing_append ..).symm

theorem Left.join {α : Type} {items : List α} {given left : α → Variables}
    (each : ∀ item ∈ items, Left bindings (given item) (left item)) :
    Left bindings (join (items.map given)) (join (items.map left)) := by
  induction items with
  | nil => exact empty
  | cons item rest ih =>
      exact (each item (by simp)).append (ih fun other member => each other (by simp [member]))

theorem Left.distinct {given left : Variables} (leaves : Left bindings given left) :
    Left bindings given.distinct left.distinct where
  scalars := (congrArg _ leaves.scalars).trans (distinct_names_filter ..)
  vectors := (congrArg _ leaves.vectors).trans (distinct_names_filter ..)
  recorded := (congrArg _ leaves.recorded).trans (distinct_names_filter ..)

/-- A name that is left is recorded exactly if it was, so no free variable is hidden or bared. -/
theorem Left.free {given left : Variables} (leaves : Left bindings given left) :
    left.free = bindings.scalars.missing given.free := by
  unfold Variables.free NameMap.missing
  rw [leaves.scalars, leaves.recorded, NameMap.missing, NameMap.missing, List.filter_filter,
    List.filter_filter]
  refine List.filter_congr fun name _ => ?_
  cases bound : bindings.scalars.contains name <;> simp [List.contains_eq_mem, bound]

theorem Left.check_iff {given left : Variables} (leaves : Left bindings given left) :
    left.check = .ok () ↔ (∀ name ∈ given.free, bindings.scalars.contains name = true) ∧
      ∀ name ∈ given.vectors, bindings.vectors.contains name = true := by
  rw [← NameMap.missing_eq_nil_iff, ← NameMap.missing_eq_nil_iff, ← leaves.free, ← leaves.vectors]
  unfold check
  split_ifs with none
  · simpa using none
  · simpa using none

end Variables

open Variables

variable {bindings : Bindings}

namespace Scalar

theorem uses_all_eq (operands : List Scalar) : usesAll operands = .join (operands.map uses) := by
  induction operands with
  | nil => rfl
  | cons operand rest ih => rw [usesAll, List.map_cons, join_cons, ih]

theorem uses_bound_eq (bound : Option Scalar) :
    usesBound bound = .join (bound.toList.map uses) := by
  cases bound with
  | none => rfl
  | some given =>
      exact (append_empty given.uses).symm

theorem replace_left (bindings : Bindings) (scalar : Scalar) :
    Left bindings scalar.uses (scalar.replace bindings.scalars).uses := by
  induction scalar using Scalar.parts_induction with
  | literal value => exact .empty
  | named name =>
      rw [replace]
      cases found : bindings.scalars.find? name <;>
        constructor <;> simp [uses, NameMap.missing, NameMap.contains, found]
  | assigned name value => exact ⟨rfl, rfl, rfl⟩
  | negative operand ih => exact ih
  | add left right leftIh rightIh
  | mul left right leftIh rightIh
  | div left right leftIh rightIh => exact leftIh.append rightIh
  | min operands ih
  | max operands ih =>
      rw [replace, uses, uses, replace_all_eq_map, uses_all_eq, uses_all_eq, List.map_map]
      exact .join ih
  | slice extent start stop extentIh startIh stopIh =>
      have bound : ∀ {bound : Option Scalar},
          (∀ given ∈ bound, Left bindings given.uses (given.replace bindings.scalars).uses) →
          Left bindings (usesBound bound) (usesBound (replaceBound bindings.scalars bound)) := by
        intro bound each
        cases bound with
        | none => exact .empty
        | some given => exact each given rfl
      exact (extentIh.append (bound startIh)).append (bound stopIh)

/-- A tidy scalar keeps all its operands, so only names are lost. -/
theorem substitute_left {scalar : Scalar} (tidied : scalar.tidy = true)
    (spared : bindings.Spares scalar.assignments) :
    Left bindings scalar.uses (scalar.substitute bindings.scalars).uses := by
  rw [substitute_eq_replace scalar tidied spared]
  exact scalar.replace_left bindings

theorem substitute_all_left {scalars : List Scalar}
    (tidied : ∀ scalar ∈ scalars, scalar.tidy = true)
    (spared : ∀ scalar ∈ scalars, bindings.Spares scalar.assignments) :
    Left bindings (usesAll scalars)
      (usesAll (scalars.map (Scalar.substitute bindings.scalars))) := by
  rw [uses_all_eq, uses_all_eq, List.map_map]
  exact .join fun scalar member => substitute_left (tidied scalar member) (spared scalar member)

end Scalar

theorem Interval.substitute_left {interval : Interval} (formed : interval.Each Scalar.Formed)
    (spared : bindings.Spares interval.assignments) :
    Left bindings interval.uses (interval.substitute bindings.scalars).uses := by
  have used : ∀ interval : Interval, interval.uses = Scalar.usesAll interval.bounds := by
    intro interval
    rw [Scalar.uses_all_eq, bounds, List.map_append, join_append, ← Scalar.uses_bound_eq,
      ← Scalar.uses_bound_eq]
    rfl
  rw [used, used, Waveform.bounds_substitute]
  rw [assignments, Bindings.spares_flat_map_iff] at spared
  exact Scalar.substitute_all_left formed spared

namespace Waveform

/-- A waveform uses what it introduces, then what stands in it, and then what its parts use. -/
theorem uses_eq (waveform : Waveform) :
    waveform.uses = waveform.introduced ++ Scalar.usesAll waveform.scalars ++
      join (waveform.children.map uses) := by
  rw [uses, nodes_eq, nodes_all_eq, List.map_cons, join_cons, List.map_flatMap, join_flatMap]
  rfl

theorem introduced_left {waveform : Waveform}
    (unbound : ∀ name ∈ waveform.introduced.recorded, bindings.scalars.contains name = false) :
    Left bindings waveform.introduced waveform.introduced := by
  cases waveform with
  | record name inner side =>
      have free : bindings.scalars.contains name = false := unbound name (by simp [introduced])
      constructor <;> simp [introduced, NameMap.missing, free]
  | _ => exact .empty

/-- A record that is dissolved takes its variable with it, which is bound. -/
theorem substitute_left (waveform : Waveform) (formed : waveform.Each Scalar.Formed)
    (spared : bindings.Spares waveform.assignments) :
    Left bindings waveform.uses (waveform.substitute bindings.scalars).uses := by
  induction waveform using children_induction with
  | step waveform ih =>
      obtain ⟨ownFormed, partsFormed⟩ := (each_iff waveform).1 formed
      obtain ⟨ownSpared, partsSpared⟩ := (spares_iff waveform).1 spared
      have parts : ∀ child ∈ waveform.children,
          Left bindings child.uses (child.substitute bindings.scalars).uses :=
        fun child member => ih child member (partsFormed child member) (partsSpared child member)
      rcases substitute_node bindings.scalars waveform with
        ⟨name, inner, side, rfl, bound, dissolved⟩ |
          ⟨⟨introduces, unbound⟩, scalarsMade, childrenMade⟩
      · have inside := parts inner (by simp [children])
        have lost : Left bindings { recorded := [name] } {} := by
          constructor <;> simp [NameMap.missing, bound]
        rw [dissolved, uses_eq]
        simpa [introduced, scalars, children, Scalar.usesAll, Variables.join] using
          lost.append inside
      · rw [uses_eq waveform, uses_eq, introduces, scalarsMade, childrenMade, List.map_map]
        exact ((introduced_left unbound).append
          (Scalar.substitute_all_left ownFormed ownSpared)).append (.join parts)

end Waveform

namespace Modulation

theorem substitute_left {modulation : Modulation} (settled : modulation.Settled)
    (spared : bindings.Spares modulation.assignments) :
    Left bindings modulation.uses (modulation.substitute bindings).uses := by
  cases modulation with
  | uniform => exact .empty
  | vector name =>
      rw [substitute]
      cases found : bindings.vectors.find? name <;>
        constructor <;> simp [uses, NameMap.missing, NameMap.contains, found]
  | assignedVector name values => exact ⟨rfl, rfl, rfl⟩
  | scaled locations =>
      rw [assignments, Bindings.spares_flat_map_iff] at spared
      rw [substitute, of_locations_eq, ← place_all_substitute, place_all_of_ordered settled.1 settled.2.1,
        uses, uses, List.map_map]
      have each := Scalar.substitute_all_left (List.forall_mem_map.2 settled.2.2)
        (List.forall_mem_map.2 spared)
      rwa [List.map_map] at each

end Modulation

theorem Drive.substitute_left {drive : Drive} (formed : drive.Formed)
    (near : drive.target.SitesNear)
    (spared : bindings.Spares drive.assignments) :
    Left bindings drive.uses (drive.substitute bindings).uses := by
  obtain ⟨targetSpared, waveformSpared⟩ := (Bindings.spares_append_iff _ _).1 spared
  exact (Modulation.substitute_left (formed.target.settled near) targetSpared).append
    (drive.waveform.substitute_left formed.waveform waveformSpared)

namespace Field

/-- Modulations that are apart stay so, and no drives are summed. -/
theorem substitute_drives {field : Field} (formed : field.Formed) (near : field.SitesNear)
    (spared : bindings.Spares field.assignments) :
    (field.substitute bindings).drives = field.drives.map (Drive.substitute bindings) := by
  rw [assignments, Bindings.spares_flat_map_iff] at spared
  refine of_drives_of_apart _ (List.pairwise_map.2 ?_)
  refine List.Pairwise.imp_of_mem (fun {first second} firstMember secondMember different => ?_)
    formed.apart
  have firstReady : Ready bindings first :=
    ⟨(formed.drives first firstMember).target.settled (near first firstMember),
      spared first firstMember⟩
  have secondReady : Ready bindings second :=
    ⟨(formed.drives second secondMember).target.settled (near second secondMember),
      spared second secondMember⟩
  rw [firstReady.same_iff secondReady, different]

theorem substitute_left {field : Field} (formed : field.Formed) (near : field.SitesNear)
    (spared : bindings.Spares field.assignments) :
    Left bindings field.uses (field.substitute bindings).uses := by
  have kept := substitute_drives formed near spared
  rw [assignments, Bindings.spares_flat_map_iff] at spared
  unfold uses
  rw [kept, List.map_map]
  exact .join fun drive member => Drive.substitute_left (formed.drives drive member)
    (near drive member) (spared drive member)

end Field

namespace Pulse

theorem uses_all_eq (parts : List Pulse) : usesAll parts = join (parts.map uses) := by
  induction parts with
  | nil => rfl
  | cons part rest ih => rw [usesAll, List.map_cons, join_cons, ih]

theorem substitute_left (pulse : Pulse) (formed : pulse.Formed) (near : pulse.SitesNear)
    (spared : bindings.Spares pulse.assignments) :
    Left bindings pulse.uses (pulse.substitute bindings).uses := by
  unfold Formed at formed
  induction pulse using Pulse.parts_induction with
  | plain fields =>
      rw [assignments, Bindings.spares_flat_map_iff] at spared
      rw [substitute, uses, uses, PerField.entries_map, List.map_map]
      exact .join fun entry member => Field.substitute_left (formed entry member)
        (near entry member) (spared entry member)
  | append parts ih =>
      rw [each_append_iff] at formed
      rw [SitesNear, each_append_iff] at near
      rw [assignments, assignments_all_eq, Bindings.spares_flat_map_iff] at spared
      rw [substitute, uses, uses, substitute_all_eq_map, uses_all_eq, uses_all_eq, List.map_map]
      exact .join fun part member =>
        ih part member (formed part member) (near part member) (spared part member)
  | slice inner interval ih =>
      obtain ⟨innerSpared, intervalSpared⟩ := (Bindings.spares_append_iff _ _).1 spared
      exact (Interval.substitute_left formed.2 intervalSpared).append
        (ih formed.1 near.1 innerSpared)
  | named name inner ih => exact ih formed near spared

end Pulse

namespace Sequence

theorem uses_all_eq (parts : List Sequence) : usesAll parts = join (parts.map uses) := by
  induction parts with
  | nil => rfl
  | cons part rest ih => rw [usesAll, List.map_cons, join_cons, ih]

theorem substitute_left (sequence : Sequence) (formed : sequence.Formed) (near : sequence.SitesNear)
    (spared : bindings.Spares sequence.assignments) :
    Left bindings sequence.uses (sequence.substitute bindings).uses := by
  unfold Formed at formed
  induction sequence using Sequence.parts_induction with
  | plain pulses =>
      rw [assignments, Bindings.spares_flat_map_iff] at spared
      rw [substitute, uses, uses, PerCoupling.entries_map, List.map_map]
      exact .join fun entry member => Pulse.substitute_left entry.2 (formed entry member)
        (near entry member) (spared entry member)
  | append parts ih =>
      rw [each_append_iff] at formed
      rw [SitesNear, each_append_iff] at near
      rw [assignments, assignments_all_eq, Bindings.spares_flat_map_iff] at spared
      rw [substitute, uses, uses, substitute_all_eq_map, uses_all_eq, uses_all_eq, List.map_map]
      exact .join fun part member =>
        ih part member (formed part member) (near part member) (spared part member)
  | slice inner interval ih =>
      obtain ⟨innerSpared, intervalSpared⟩ := (Bindings.spares_append_iff _ _).1 spared
      exact (Interval.substitute_left formed.2 intervalSpared).append
        (ih formed.1 near.1 innerSpared)
  | named name inner ih => exact ih formed near spared

end Sequence

namespace Node

theorem substitute_left {node : Node} {used : Variables} (formed : node.Formed)
    (near : node.SitesNear)
    (spared : bindings.Spares node.assignments) (scanned : node.distinctUses = .ok used) :
    ∃ left, (node.substitute bindings).distinctUses = .ok left ∧ Left bindings used left := by
  cases node with
  | scalar value =>
      cases scanned
      exact ⟨_, rfl, (Scalar.substitute_left formed spared).distinct⟩
  | waveform value =>
      cases scanned
      exact ⟨_, rfl, (value.substitute_left formed spared).distinct⟩
  | field value =>
      cases scanned
      exact ⟨_, rfl, (Field.substitute_left formed near spared).distinct⟩
  | pulse value =>
      cases scanned
      exact ⟨_, rfl, (value.substitute_left formed near spared).distinct⟩
  | sequence value =>
      cases scanned
      exact ⟨_, rfl, (value.substitute_left formed near spared).distinct⟩
  | circuit value =>
      cases scanned
      exact ⟨_, rfl, (value.sequence.substitute_left formed near spared).distinct⟩
  | modulation value
  | register value
  | series value => cases scanned

end Node

/-- The scan of an assigned node finds what the scan of the node finds, without the names that
were bound: in the free variables and the recorded ones without those bound as scalars, and in
the vectors without those bound as vectors, all in the same order. So the assigned node passes
the check exactly if every free variable and every vector of the node is bound. The sites of a
modulation must not be so far apart that their difference wraps. -/
theorem Node.assigned_variables {node result : Node} {used : Variables} (formed : node.Formed)
    (near : node.SitesNear)
    (scanned : node.distinctUses = .ok used) (assigned : node.assign bindings = .ok result) :
    ∃ left, result.distinctUses = .ok left ∧
      left.free = used.free.filter (fun name => !bindings.scalars.contains name) ∧
      left.recorded = used.recorded.filter (fun name => !bindings.scalars.contains name) ∧
      left.vectors = used.vectors.filter (fun name => !bindings.vectors.contains name) ∧
      (left.check = .ok () ↔ (∀ name ∈ used.free, bindings.scalars.contains name = true) ∧
        ∀ name ∈ used.vectors, bindings.vectors.contains name = true) := by
  obtain ⟨spared, rfl⟩ := assign_ok_iff.1 assigned
  obtain ⟨left, leftScanned, leaves⟩ := node.substitute_left formed near spared scanned
  exact ⟨left, leftScanned, leaves.free, leaves.recorded, leaves.vectors, leaves.check_iff⟩

/-- A field with a scaled modulation and a vector. One record is nested in another, and its variable
is used after both. -/
def nestedRecords : Field :=
  ⟨[⟨.scaled [⟨0, .variable "w"⟩, ⟨3, .min [.variable "w", .variable "top"]⟩],
      .append [
        .record "end" (.record "top" (.ramp (.literal 0) (.variable "x") (.variable "t")) .right)
          .right,
        .constant (.variable "top") (.max [.variable "t", .variable "u"])]⟩,
    ⟨.vector "v", .constant (.variable "end") (.variable "u")⟩]⟩

def innerDissolved : Field :=
  ⟨[⟨.scaled [⟨0, .variable "w"⟩, ⟨3, .min [.variable "w", .assigned "top" 2]⟩],
      .append [
        .record "end" (.ramp (.literal 0) (.variable "x") (.assigned "t" 1)) .right,
        .constant (.assigned "top" 2) (.max [.assigned "t" 1, .variable "u"])]⟩,
    ⟨.assignedVector "v" [1], .constant (.variable "end") (.variable "u")⟩]⟩

theorem Node.assigned_variables_nested_records :
    ∃ used left, (Node.field nestedRecords).distinctUses = .ok used ∧
      used.free = ["w", "x", "t", "u"] ∧ used.recorded = ["end", "top"] ∧ used.vectors = ["v"] ∧
      (Node.field nestedRecords).assign
        ⟨.ofList [("t", 1), ("top", 2)], .ofList [("v", [1])]⟩ = .ok (.field innerDissolved) ∧
      (Node.field innerDissolved).distinctUses = .ok left ∧
      left.free = ["w", "x", "u"] ∧ left.recorded = ["end"] ∧ left.vectors = [] ∧
      left.check ≠ .ok () := by
  have assigned : (Node.field nestedRecords).assign
      ⟨.ofList [("t", 1), ("top", 2)], .ofList [("v", [1])]⟩ = .ok (.field innerDissolved) := rfl
  have sitesNear : Modulation.Near
      [⟨0, .variable "w"⟩, ⟨3, .min [.variable "w", .variable "top"]⟩] :=
    Modulation.near_of_small (by decide)
  have near : (Node.field nestedRecords).SitesNear :=
    List.forall_mem_cons.2 ⟨sitesNear, List.forall_mem_singleton.2 trivial⟩
  have formed : (Node.field nestedRecords).Formed := by
    refine ⟨List.forall_mem_cons.2 ⟨⟨?_, by decide⟩,
      List.forall_mem_singleton.2 ⟨trivial, by decide⟩⟩, List.pairwise_pair.2 rfl⟩
    exact Modulation.formed_of_ordered sitesNear (List.pairwise_pair.2 (by decide)) (by decide)
  obtain ⟨left, leftScanned, free, recorded, vectors, passes⟩ :=
    Node.assigned_variables formed near rfl assigned
  refine ⟨_, left, rfl, rfl, rfl, rfl, assigned, leftScanned, free, recorded, vectors, ?_⟩
  rw [Ne, passes]
  decide

/-- A field on two sites whose difference is its own negative, so that each comes before the
other. -/
def farSites : Field :=
  ⟨[⟨.ofLocations [⟨0, .variable "x"⟩, ⟨9223372036854775808, .add (.variable "y") (.variable "z")⟩],
    .constant (.literal 1) (.literal 1)⟩]⟩

/-- Assignment lists the sites once more and so turns them round. -/
theorem Node.assigned_variables_reordered :
    (Node.field farSites).Formed ∧
      ∃ used left result, (Node.field farSites).distinctUses = .ok used ∧
        (Node.field farSites).assign ⟨.ofList [("z", 1)], .empty⟩ = .ok result ∧
        result.distinctUses = .ok left ∧ used.free = ["y", "z", "x"] ∧
        used.free.filter (fun name => !(NameMap.ofList [("z", (1 : Decimal))]).contains name) =
          ["y", "x"] ∧
        left.free = ["x", "y"] := by
  constructor
  · refine ⟨List.forall_mem_singleton.2 ⟨⟨⟨_, rfl⟩, by decide⟩, by decide⟩, ?_⟩
    exact List.pairwise_singleton _ _
  · exact ⟨_, _, _, rfl, rfl, rfl, rfl, rfl, rfl⟩

end Analog
