import Analog.Proofs.SubstitutedNodes

/-!
# Nodes as their constructors make them

The constructors of minima and maxima drop repeated operands. Locations are put in order, and
the weights of a site that is listed twice are added. Drives of one modulation are summed. A
node is formed if nothing in it is left for them to do. Assignment builds every node anew with
these constructors, so what comes out of it is formed.
-/

set_option autoImplicit false

namespace Analog

def Scalar.Formed (scalar : Scalar) : Prop :=
  scalar.tidy = true

def Modulation.Formed : Modulation → Prop
  | .scaled locations =>
    (∃ given, placeAll given = locations) ∧ ∀ location ∈ locations, location.weight.Formed
  | _ => True

structure Drive.Formed (drive : Drive) : Prop where
  target : drive.target.Formed
  waveform : drive.waveform.Each Scalar.Formed

/-- No two drives have the same modulation. -/
structure Field.Formed (field : Field) : Prop where
  drives : ∀ drive ∈ field.drives, drive.Formed
  apart : Apart field.drives

def Pulse.Formed (pulse : Pulse) : Prop :=
  pulse.Each (fun fields => ∀ entry ∈ fields.entries, entry.2.Formed) (Interval.Each Scalar.Formed)

def Sequence.Formed (sequence : Sequence) : Prop :=
  sequence.Each (fun pulses => ∀ entry ∈ pulses.entries, entry.2.Formed)
    (Interval.Each Scalar.Formed)

def Node.Formed : Node → Prop
  | scalar value => value.Formed
  | waveform value => value.Each Scalar.Formed
  | modulation value => value.Formed
  | field value => value.Formed
  | pulse value => value.Formed
  | sequence value => value.Formed
  | circuit value => value.sequence.Formed
  | register _ => True
  | series _ => True

section Decidable

variable {good : Scalar → Prop} [DecidablePred good]

instance : DecidablePred Scalar.Formed :=
  fun scalar => inferInstanceAs (Decidable (scalar.tidy = true))

instance : (modulation : Modulation) → Decidable (modulation.EachWeight good)
  | .scaled locations => inferInstanceAs (Decidable (∀ location ∈ locations, good location.weight))
  | .uniform | .vector _ | .assignedVector _ _ => .isTrue trivial

instance (drive : Drive) : Decidable (drive.Each good) :=
  decidable_of_iff (drive.target.EachWeight good ∧ drive.waveform.Each good)
    ⟨fun ⟨target, waveform⟩ => ⟨target, waveform⟩, fun each => ⟨each.target, each.waveform⟩⟩

end Decidable

variable {bindings : Bindings}

theorem Interval.substitute_formed (bindings : Bindings) (interval : Interval) :
    (interval.substitute bindings.scalars).Each Scalar.Formed := by
  rw [Each, Waveform.bounds_substitute]
  exact List.forall_mem_map.2 fun bound _ => bound.substitute_tidy bindings.scalars

theorem Waveform.substitute_formed (bindings : Bindings) (waveform : Waveform) :
    (waveform.substitute bindings.scalars).Each Scalar.Formed := by
  induction waveform using Waveform.children_induction with
  | step waveform ih =>
      rcases substitute_node bindings.scalars waveform with
        ⟨name, inner, side, rfl, _, dissolved⟩ | ⟨_, scalarsMade, childrenMade⟩
      · rw [dissolved]
        exact ih inner (by simp [children])
      · rw [each_iff, scalarsMade, childrenMade]
        exact ⟨List.forall_mem_map.2 fun scalar _ => scalar.substitute_tidy bindings.scalars,
          List.forall_mem_map.2 ih⟩

theorem Modulation.substitute_formed (bindings : Bindings) (modulation : Modulation) :
    (modulation.substitute bindings).Formed := by
  have tidied := modulation.substitute_tidied bindings
  cases modulation with
  | uniform => trivial
  | vector name =>
      rw [substitute]
      cases bindings.vectors.find? name <;> trivial
  | assignedVector name values => trivial
  | scaled locations => exact ⟨⟨_, rfl⟩, tidied⟩

theorem Modulation.formed_of_ordered {locations : List Location} (near : Near locations)
    (ordered : Ordered locations) (tidied : ∀ location ∈ locations, location.weight.Formed) :
    (scaled locations).Formed :=
  ⟨⟨locations, place_all_of_ordered near ordered⟩, tidied⟩

/-- Sites that are put in their places stand in order if none is too far from another. -/
theorem Modulation.Formed.settled {modulation : Modulation} (formed : modulation.Formed)
    (near : modulation.SitesNear) : modulation.Settled := by
  cases modulation with
  | scaled locations =>
      obtain ⟨⟨given, rfl⟩, tidied⟩ := formed
      change Near (placeAll given) at near
      have givenNear : Near given := near.of_sites fun other member =>
        List.mem_map.1 ((mem_sites_place_all given other.site).2 (List.mem_map_of_mem member))
      exact ⟨near, place_all_ordered givenNear, tidied⟩
  | uniform
  | vector name
  | assignedVector name values => trivial

theorem Field.substitute_formed (bindings : Bindings) (field : Field) :
    (field.substitute bindings).Formed := by
  refine ⟨of_drives_each (fun first second firstFormed secondFormed _ => ?_)
    (List.forall_mem_map.2 fun drive _ => ?_), of_drives_apart _⟩
  · refine ⟨firstFormed.target, (Waveform.each_iff _).2 ?_⟩
    simpa [Waveform.scalars, Waveform.children] using
      ⟨firstFormed.waveform, secondFormed.waveform⟩
  · exact ⟨drive.target.substitute_formed bindings, drive.waveform.substitute_formed bindings⟩

theorem Pulse.substitute_formed (bindings : Bindings) (pulse : Pulse) :
    (pulse.substitute bindings).Formed := by
  unfold Formed
  induction pulse using Pulse.parts_induction with
  | plain fields =>
      rw [substitute, each_plain_iff, PerField.entries_map]
      exact List.forall_mem_map.2 fun entry _ => entry.2.substitute_formed bindings
  | append parts ih =>
      rw [substitute, substitute_all_eq_map, each_append_iff]
      exact List.forall_mem_map.2 ih
  | slice inner interval ih => exact ⟨ih, interval.substitute_formed bindings⟩
  | named name inner ih => exact ih

theorem Sequence.substitute_formed (bindings : Bindings) (sequence : Sequence) :
    (sequence.substitute bindings).Formed := by
  unfold Formed
  induction sequence using Sequence.parts_induction with
  | plain pulses =>
      rw [substitute, each_plain_iff, PerCoupling.entries_map]
      exact List.forall_mem_map.2 fun entry _ => entry.2.substitute_formed bindings
  | append parts ih =>
      rw [substitute, substitute_all_eq_map, each_append_iff]
      exact List.forall_mem_map.2 ih
  | slice inner interval ih => exact ⟨ih, interval.substitute_formed bindings⟩
  | named name inner ih => exact ih

theorem Node.assign_ok_iff {node result : Node} :
    node.assign bindings = .ok result ↔
      bindings.Spares node.assignments ∧ result = node.substitute bindings := by
  have guarded := node.assign_guarded bindings
  constructor
  · intro assigned
    have spared : bindings.Spares node.assignments := by
      by_contra rebound
      obtain ⟨name, existing, attempted, failed⟩ := guarded.conflicts rebound
      rw [failed] at assigned
      cases assigned
    rw [guarded.succeeds spared, Except.ok.injEq] at assigned
    exact ⟨spared, assigned.symm⟩
  · rintro ⟨spared, rfl⟩
    exact guarded.succeeds spared

/-- What is assigned is built anew by the constructors, whatever it was before. -/
theorem Node.assign_formed {node result : Node} (assigned : node.assign bindings = .ok result) :
    result.Formed := by
  obtain ⟨_, rfl⟩ := assign_ok_iff.1 assigned
  cases node with
  | scalar value => exact value.substitute_tidy bindings.scalars
  | waveform value => exact value.substitute_formed bindings
  | modulation value => exact value.substitute_formed bindings
  | field value => exact value.substitute_formed bindings
  | pulse value => exact value.substitute_formed bindings
  | sequence value => exact value.substitute_formed bindings
  | circuit value => exact value.sequence.substitute_formed bindings
  | register value
  | series value => trivial

end Analog
