import Analog.Proofs.CanonicalWaveforms
import Analog.Proofs.FormedNodes
import Analog.Proofs.MergedDrives

/-!
# Canonical fields drive every site alike

A drive acts on a site with its waveform times the weight of the site, and the drives of a
field add up. Drives are merged in two ways: those of one modulation by adding waveforms, and
those of one waveform by adding the weights of the sites that they list. Neither changes what
the drives add up to at any site and time, so no order of merges does.
-/

set_option autoImplicit false

namespace Analog

/-- How strongly a drive acts on a site of a register at a time. -/
def Drive.strengthAt [Natives] (bindings : ScalarBindings) (sites site : Nat) (time : Decimal)
    (drive : Drive) : Outcome Decimal := do
  let weights ← drive.target.coefficients bindings sites
  let value ← drive.waveform.valueAt bindings time
  return weights.getD site 0 * value

def Field.strengthAt [Natives] (bindings : ScalarBindings) (sites site : Nat) (time : Decimal)
    (field : Field) : Outcome Decimal := do
  let strengths ← field.drives.mapM (Drive.strengthAt bindings sites site time)
  return strengths.sum

section Strengths

variable [Natives] {bindings : ScalarBindings} {sites site : Nat} {time : Decimal}

theorem Drive.strength_ok_iff (drive : Drive) (strength : Decimal) :
    drive.strengthAt bindings sites site time = .ok strength ↔
      ∃ weights value, drive.target.coefficients bindings sites = .ok weights ∧
        drive.waveform.valueAt bindings time = .ok value ∧
        strength = weights.getD site 0 * value := by
  unfold strengthAt
  simp only [Outcome.bind_ok_iff, Outcome.pure_ok_iff]
  constructor
  · rintro ⟨weights, weightsOk, value, valueOk, rfl⟩
    exact ⟨weights, value, weightsOk, valueOk, rfl⟩
  · rintro ⟨weights, value, weightsOk, valueOk, rfl⟩
    exact ⟨weights, weightsOk, value, valueOk, rfl⟩

namespace Field

theorem strength_empty : (Field.mk []).strengthAt bindings sites site time = .ok 0 := rfl

theorem strength_cons_iff (drive : Drive) (rest : List Drive) (total : Decimal) :
    (Field.mk (drive :: rest)).strengthAt bindings sites site time = .ok total ↔
      ∃ first others, drive.strengthAt bindings sites site time = .ok first ∧
        (Field.mk rest).strengthAt bindings sites site time = .ok others ∧
        total = first + others := by
  unfold strengthAt
  rw [List.mapM_cons]
  simp only [Outcome.bind_ok_iff, Outcome.pure_ok_iff]
  constructor
  · rintro ⟨_, ⟨first, firstOk, strengths, strengthsOk, rfl⟩, rfl⟩
    exact ⟨first, strengths.sum, firstOk, ⟨strengths, strengthsOk, rfl⟩, List.sum_cons⟩
  · rintro ⟨first, _, firstOk, ⟨strengths, strengthsOk, rfl⟩, rfl⟩
    exact ⟨first :: strengths, ⟨first, firstOk, strengths, strengthsOk, rfl⟩, List.sum_cons⟩

theorem strength_single_iff (drive : Drive) (total : Decimal) :
    (Field.mk [drive]).strengthAt bindings sites site time = .ok total ↔
      drive.strengthAt bindings sites site time = .ok total := by
  rw [strength_cons_iff]
  constructor
  · rintro ⟨first, others, firstOk, othersOk, rfl⟩
    rw [strength_empty, Except.ok.injEq] at othersOk
    rwa [← othersOk, add_zero]
  · exact fun driveOk => ⟨total, 0, driveOk, strength_empty, (add_zero total).symm⟩

theorem strength_append_iff (before after : List Drive) (total : Decimal) :
    (Field.mk (before ++ after)).strengthAt bindings sites site time = .ok total ↔
      ∃ first second, (Field.mk before).strengthAt bindings sites site time = .ok first ∧
        (Field.mk after).strengthAt bindings sites site time = .ok second ∧
        total = first + second := by
  induction before generalizing total with
  | nil =>
      rw [List.nil_append, strength_empty]
      simp
  | cons drive rest ih =>
      rw [List.cons_append, strength_cons_iff]
      constructor
      · rintro ⟨first, others, firstOk, othersOk, rfl⟩
        obtain ⟨early, late, earlyOk, lateOk, rfl⟩ := (ih others).1 othersOk
        exact ⟨first + early, late, (strength_cons_iff _ _ _).2 ⟨first, early, firstOk, earlyOk, rfl⟩,
          lateOk, (add_assoc first early late).symm⟩
      · rintro ⟨_, late, earlyOk, lateOk, rfl⟩
        obtain ⟨first, early, firstOk, restOk, rfl⟩ := (strength_cons_iff _ _ _).1 earlyOk
        exact ⟨first, early + late, firstOk, (ih _).2 ⟨early, late, restOk, lateOk, rfl⟩,
          add_assoc first early late⟩

/-- If every drive has its weights and a value, then the field has a strength. -/
theorem exists_strength {field : Field}
    (weighs : ∀ drive ∈ field.drives, ∃ weights,
      drive.target.coefficients bindings sites = .ok weights)
    (valued : ∀ drive ∈ field.drives, ∃ value, drive.waveform.valueAt bindings time = .ok value) :
    ∃ total, field.strengthAt bindings sites site time = .ok total := by
  obtain ⟨drives⟩ := field
  induction drives with
  | nil => exact ⟨0, strength_empty⟩
  | cons drive rest ih =>
      obtain ⟨weights, weightsOk⟩ := weighs drive (by simp)
      obtain ⟨value, valueOk⟩ := valued drive (by simp)
      obtain ⟨others, othersOk⟩ := ih (fun other member => weighs other (by simp [member]))
        fun other member => valued other (by simp [member])
      exact ⟨_, (strength_cons_iff _ _ _).2 ⟨_, others,
        (drive.strength_ok_iff _).2 ⟨weights, value, weightsOk, valueOk, rfl⟩, othersOk, rfl⟩⟩

end Field

end Strengths

/-- Wherever some drives add up to a strength, others add up to the same. -/
def SameStrength [Natives] (bindings : ScalarBindings) (given result : List Drive) : Prop :=
  ∀ sites site time total, (Field.mk given).strengthAt bindings sites site time = .ok total →
    (Field.mk result).strengthAt bindings sites site time = .ok total

namespace SameStrength

variable [Natives] {bindings : ScalarBindings} {first second third given result : List Drive}

theorem refl (drives : List Drive) : SameStrength bindings drives drives :=
  fun _ _ _ _ found => found

theorem trans (one : SameStrength bindings first second)
    (two : SameStrength bindings second third) : SameStrength bindings first third :=
  fun sites site time total found => two sites site time total (one sites site time total found)

theorem append (early : SameStrength bindings first second)
    (late : SameStrength bindings given result) :
    SameStrength bindings (first ++ given) (second ++ result) := by
  intro sites site time total found
  rw [Field.strength_append_iff] at found ⊢
  obtain ⟨before, after, beforeOk, afterOk, same⟩ := found
  exact ⟨before, after, early _ _ _ _ beforeOk, late _ _ _ _ afterOk, same⟩

theorem append_right (same : SameStrength bindings given result) (rest : List Drive) :
    SameStrength bindings (given ++ rest) (result ++ rest) :=
  same.append (refl rest)

theorem cons (drive : Drive) (same : SameStrength bindings given result) :
    SameStrength bindings (drive :: given) (drive :: result) :=
  (refl [drive]).append same

/-- Strength goes on from merge to merge, and the order of drives does not matter. -/
theorem merging : Merging (SameStrength bindings) where
  refl := refl
  trans := trans
  cons := fun drive _ _ same => same.cons drive
  swap := by
    intro first second rest
    have swapped : SameStrength bindings [first, second] [second, first] := by
      intro sites site time total found
      rw [Field.strength_cons_iff] at found ⊢
      obtain ⟨one, two, oneOk, twoOk, rfl⟩ := found
      rw [Field.strength_single_iff] at twoOk
      exact ⟨two, one, twoOk, (Field.strength_single_iff _ _).2 oneOk, add_comm one two⟩
    exact swapped.append_right rest

end SameStrength

namespace Modulation

def weightAt (bindings : ScalarBindings) (site : Nat) (location : Location) : Decimal :=
  if location.site.toNat = site then (location.weight.eval bindings).toOption.getD 0 else 0

/-- The weight of a site among listed ones, those of the same site added. -/
def totalAt (bindings : ScalarBindings) (site : Nat) (listed : List Location) : Decimal :=
  (listed.map (weightAt bindings site)).sum

def Numbered (bindings : ScalarBindings) (location : Location) : Prop :=
  ∃ number, Scalar.Means bindings location.weight number

/-- A modulation with a number for every weight, and every site listed once. -/
def Weighed (bindings : ScalarBindings) : Modulation → Prop
  | .scaled listed => Single listed ∧ ∀ location ∈ listed, Numbered bindings location
  | _ => True

variable {bindings : ScalarBindings}

theorem weight_at_of_evaluates {location : Location} {number : Decimal} (site : Nat)
    (evaluates : location.weight.eval bindings = .ok number) :
    weightAt bindings site location = if location.site.toNat = site then number else 0 := by
  rw [weightAt, evaluates]
  rfl

theorem total_at_cons (site : Nat) (location : Location) (rest : List Location) :
    totalAt bindings site (location :: rest) =
      weightAt bindings site location + totalAt bindings site rest :=
  List.sum_cons

theorem total_at_append (site : Nat) (before after : List Location) :
    totalAt bindings site (before ++ after) =
      totalAt bindings site before + totalAt bindings site after := by
  rw [totalAt, List.map_append, List.sum_append]
  rfl

theorem total_at_elsewhere {site : Nat} {listed : List Location}
    (elsewhere : ∀ location ∈ listed, location.site.toNat ≠ site) :
    totalAt bindings site listed = 0 := by
  induction listed with
  | nil => rfl
  | cons location rest ih =>
      obtain ⟨different, others⟩ := List.forall_mem_cons.1 elsewhere
      rw [total_at_cons, weightAt, if_neg different, ih others, add_zero]

theorem total_at_gather_location (site : Nat) {location : Location} {gathered : List Location}
    (numbered : Numbered bindings location)
    (gatheredNumbered : ∀ other ∈ gathered, Numbered bindings other) :
    totalAt bindings site (gatherLocation location gathered) =
      weightAt bindings site location + totalAt bindings site gathered := by
  induction gathered with
  | nil => rfl
  | cons head rest ih =>
      obtain ⟨headNumbered, restNumbered⟩ := List.forall_mem_cons.1 gatheredNumbered
      unfold gatherLocation
      split_ifs with same
      · obtain ⟨first, headMeans⟩ := headNumbered
        obtain ⟨second, means⟩ := numbered
        have summed := (Scalar.add_means_iff _ _ _).2 ⟨first, second, headMeans, means, rfl⟩
        rw [total_at_cons, total_at_cons, weight_at_of_evaluates site summed.evaluates,
          weight_at_of_evaluates site headMeans.evaluates,
          weight_at_of_evaluates site means.evaluates, same]
        split_ifs <;> ring
      · rw [total_at_cons, ih restNumbered, total_at_cons, add_left_comm]

theorem numbered_sum {first second : Location} (firstNumbered : Numbered bindings first)
    (secondNumbered : Numbered bindings second) :
    Numbered bindings ⟨first.site, .add first.weight second.weight⟩ := by
  obtain ⟨one, firstMeans⟩ := firstNumbered
  obtain ⟨other, secondMeans⟩ := secondNumbered
  exact ⟨one + other, (Scalar.add_means_iff _ _ _).2 ⟨one, other, firstMeans, secondMeans, rfl⟩⟩

theorem numbered_place_all {listed : List Location}
    (numbered : ∀ location ∈ listed, Numbered bindings location) :
    ∀ location ∈ placeAll listed, Numbered bindings location :=
  place_all_each (fun _ _ => numbered_sum) numbered

/-- Putting locations in order does not change what the weights of a site add up to. -/
theorem total_at_place_all (site : Nat) {listed : List Location}
    (numbered : ∀ location ∈ listed, Numbered bindings location) :
    totalAt bindings site (placeAll listed) = totalAt bindings site listed := by
  have sorted : totalAt bindings site (placeAll listed) =
      totalAt bindings site (gatherAll listed) :=
    ((place_all_perm listed).map _).sum_eq
  rw [sorted]
  clear sorted
  induction listed using List.reverseRecOn with
  | nil => rfl
  | append_singleton before last ih =>
      rw [List.forall_mem_append, List.forall_mem_singleton] at numbered
      rw [gather_all_append, total_at_gather_location site numbered.2
        (gather_all_each (fun _ _ => numbered_sum) numbered.1), ih numbered.1, total_at_append,
        total_at_cons]
      exact (add_comm _ _).trans (congrArg _ (add_zero _).symm)

theorem weighed_of_locations {listed : List Location}
    (numbered : ∀ location ∈ listed, Numbered bindings location) :
    Weighed bindings (ofLocations listed) :=
  ⟨place_all_single listed, numbered_place_all numbered⟩

theorem location_values_ok_iff (subject : Unit → String) (sites : Nat) (listed : List Location)
    (values : List (Nat × Decimal)) :
    locationValues bindings subject sites listed = .ok values ↔
      List.Forall₂ (fun location value => location.site.toNat < sites ∧
        location.site.toNat = value.1 ∧ location.weight.eval bindings = .ok value.2) listed values := by
  induction listed generalizing values with
  | nil => simp [locationValues, List.forall₂_nil_left_iff, eq_comm]
  | cons location rest ih =>
      unfold locationValues
      split_ifs with outside
      · simp only [List.forall₂_cons_left_iff, false_iff]
        rintro ⟨_, _, ⟨inside, _⟩, _⟩
        omega
      · simp only [Outcome.bind_ok_iff, Outcome.pure_ok_iff, List.forall₂_cons_left_iff, ih]
        constructor
        · rintro ⟨number, numberOk, others, related, rfl⟩
          exact ⟨_, others, ⟨by omega, rfl, numberOk⟩, related, rfl⟩
        · rintro ⟨⟨_, number⟩, others, ⟨_, rfl, numberOk⟩, related, rfl⟩
          exact ⟨number, numberOk, others, related, rfl⟩

/-- Where no site is listed twice, only one entry stands for a site. -/
theorem lookup_eq_total {sites site : Nat} {listed : List Location} {values : List (Nat × Decimal)}
    (single : Single listed)
    (related : List.Forall₂ (fun location value => location.site.toNat < sites ∧
      location.site.toNat = value.1 ∧ location.weight.eval bindings = .ok value.2) listed values) :
    (values.lookup site).getD 0 = totalAt bindings site listed := by
  induction related with
  | nil => rfl
  | @cons location value rest others one _ ih =>
      obtain ⟨key, number⟩ := value
      obtain ⟨_, rfl, evaluates⟩ := one
      obtain ⟨apart, restSingle⟩ := List.pairwise_cons.1 single
      rw [total_at_cons, weight_at_of_evaluates site evaluates, List.lookup_cons]
      by_cases same : location.site.toNat = site
      · subst same
        rw [total_at_elsewhere fun other member sameSite =>
          apart other member (UInt64.toNat_inj.1 sameSite.symm)]
        simp
      · have different : (site == location.site.toNat) = false :=
          beq_eq_false_iff_ne.2 (Ne.symm same)
        rw [different, if_neg same, zero_add]
        exact ih restSingle

/-- The weights of listed sites are what is added up for each site, if all sites exist. -/
theorem coefficients_scaled_iff {sites : Nat} {listed : List Location}
    (weighed : Weighed bindings (.scaled listed)) (weights : List Decimal) :
    (Modulation.scaled listed).coefficients bindings sites = .ok weights ↔
      (∀ location ∈ listed, location.site.toNat < sites) ∧
        weights = (List.range sites).map (totalAt bindings · listed) := by
  obtain ⟨single, numbered⟩ := weighed
  rw [coefficients, Outcome.bind_ok_iff]
  simp only [Outcome.pure_ok_iff, location_values_ok_iff]
  constructor
  · rintro ⟨values, related, rfl⟩
    refine ⟨fun location member => ?_, List.map_congr_left fun site _ =>
      lookup_eq_total single related⟩
    obtain ⟨_, _, inside, _⟩ := Outcome.target_of_mem related member
    exact inside
  · rintro ⟨inside, rfl⟩
    have related : List.Forall₂ (fun location (value : Nat × Decimal) => location.site.toNat < sites ∧
        location.site.toNat = value.1 ∧ location.weight.eval bindings = .ok value.2) listed
        (listed.map fun location =>
          (location.site.toNat, (location.weight.eval bindings).toOption.getD 0)) := by
      rw [List.forall₂_map_right_iff, List.forall₂_same]
      intro location member
      obtain ⟨number, means⟩ := numbered location member
      refine ⟨inside location member, rfl, ?_⟩
      rw [means.evaluates]
      rfl
    exact ⟨_, related, (List.map_congr_left fun site _ => lookup_eq_total single related)⟩

/-- The weights of a modulation made of locations, which may list a site more than once. -/
theorem coefficients_of_locations_iff {sites : Nat} {listed : List Location}
    (numbered : ∀ location ∈ listed, Numbered bindings location) (weights : List Decimal) :
    (ofLocations listed).coefficients bindings sites = .ok weights ↔
      (∀ location ∈ listed, location.site.toNat < sites) ∧
        weights = (List.range sites).map (totalAt bindings · listed) := by
  have weighed : Weighed bindings (.scaled (placeAll listed)) := weighed_of_locations numbered
  rw [of_locations_eq, coefficients_scaled_iff weighed]
  have inside : ∀ locations : List Location, (∀ location ∈ locations, location.site.toNat < sites) ↔
      ∀ site ∈ locations.map (·.site), site.toNat < sites := by
    intro locations
    rw [List.forall_mem_map]
  rw [inside, inside listed]
  simp only [mem_sites_place_all, total_at_place_all _ numbered]

theorem total_at_of_same {site : Nat} {lefts rights : List Location}
    (leftNumbered : ∀ location ∈ lefts, Numbered bindings location)
    (rightNumbered : ∀ location ∈ rights, Numbered bindings location)
    (equal : sameLocations lefts rights = true) :
    totalAt bindings site lefts = totalAt bindings site rights := by
  induction lefts generalizing rights with
  | nil =>
      cases rights with
      | nil => rfl
      | cons _ _ => cases equal
  | cons left rest ih =>
      cases rights with
      | nil => cases equal
      | cons right others =>
          simp only [sameLocations, Bool.and_eq_true, beq_iff_eq] at equal
          obtain ⟨⟨sameSite, sameWeight⟩, sameRest⟩ := equal
          obtain ⟨⟨first, leftMeans⟩, restNumbered⟩ := List.forall_mem_cons.1 leftNumbered
          obtain ⟨⟨second, rightMeans⟩, othersNumbered⟩ := List.forall_mem_cons.1 rightNumbered
          rw [total_at_cons, total_at_cons, ih restNumbered othersNumbered sameRest,
            weight_at_of_evaluates site leftMeans.evaluates,
            weight_at_of_evaluates site rightMeans.evaluates, sameSite,
            leftMeans.of_same rightMeans sameWeight]

theorem coefficients_of_same {sites : Nat} {left right : Modulation} {weights others : List Decimal}
    (leftWeighed : Weighed bindings left) (rightWeighed : Weighed bindings right)
    (equal : left.same right = true) (found : left.coefficients bindings sites = .ok weights)
    (otherFound : right.coefficients bindings sites = .ok others) : weights = others := by
  cases left with
  | uniform =>
      cases right with
      | uniform =>
          rw [found] at otherFound
          exact Except.ok.inj otherFound
      | _ => cases equal
  | vector name => cases found
  | assignedVector name values =>
      cases right with
      | assignedVector other given =>
          simp only [Modulation.same, Bool.and_eq_true, beq_iff_eq] at equal
          obtain ⟨rfl, rfl⟩ := equal
          rw [found] at otherFound
          exact Except.ok.inj otherFound
      | _ => cases equal
  | scaled lefts =>
      cases right with
      | scaled rights =>
          rw [coefficients_scaled_iff leftWeighed] at found
          rw [coefficients_scaled_iff rightWeighed] at otherFound
          rw [found.2, otherFound.2]
          exact List.map_congr_left fun site _ =>
            total_at_of_same leftWeighed.2 rightWeighed.2 equal
      | _ => cases equal

theorem weights_add (sites site : Nat) (first second : Nat → Decimal) :
    ((List.range sites).map fun site => first site + second site).getD site 0 =
      ((List.range sites).map first).getD site 0 + ((List.range sites).map second).getD site 0 := by
  by_cases inside : site < sites
  · simp [List.getD_eq_getElem?_getD, inside]
  · simp [List.getD_eq_getElem?_getD, inside]

end Modulation

namespace Canonical

variable {bindings : ScalarBindings} {relation : Waveform → Waveform → Prop}

section Modulations

open Modulation

/-- A modulation that gives every site the weight that another gives it. -/
structure SameWeights (bindings : ScalarBindings) (given result : Modulation) : Prop where
  weighed : Weighed bindings result
  weights : ∀ sites weights, given.coefficients bindings sites = .ok weights →
    result.coefficients bindings sites = .ok weights

theorem locations_yield {listed : List Location}
    (numbered : ∀ location ∈ listed, Numbered bindings location) :
    Yields (Faithful bindings relation) (locations listed)
      (List.Forall₂ (fun location result => location.site = result.site ∧
        ∃ number, Scalar.Means bindings location.weight number ∧
          Scalar.Means bindings result.weight number) listed) := by
  rw [locations_eq_mapM]
  refine Yields.mapM fun location member => ?_
  obtain ⟨number, means⟩ := numbered location member
  exact (scalar_yields location.weight number means).bind fun weight weightMeans =>
    .pure ⟨rfl, number, means, weightMeans⟩

theorem modulation_yields {given : Modulation} (weighed : Weighed bindings given) :
    Yields (Faithful bindings relation) (modulation given) (SameWeights bindings given) := by
  cases given with
  | scaled listed =>
      rw [modulation]
      refine (locations_yield weighed.2).bind fun results related => .pure ?_
      have numbered : ∀ location ∈ results, Numbered bindings location := by
        intro location member
        obtain ⟨_, _, _, number, _, means⟩ := Outcome.source_of_mem related member
        exact ⟨number, means⟩
      refine ⟨weighed_of_locations numbered, fun sites weights found => ?_⟩
      rw [coefficients_scaled_iff weighed] at found
      rw [coefficients_of_locations_iff numbered]
      obtain ⟨inside, rfl⟩ := found
      refine ⟨fun location member => ?_, List.map_congr_left fun site _ => ?_⟩
      · obtain ⟨before, beforeMember, sameSite, _⟩ := Outcome.source_of_mem related member
        rw [← sameSite]
        exact inside before beforeMember
      · clear inside weighed numbered
        induction related with
        | nil => rfl
        | cons one _ ih =>
            obtain ⟨sameSite, number, means, resultMeans⟩ := one
            rw [total_at_cons, total_at_cons, ih, weight_at_of_evaluates site means.evaluates,
              weight_at_of_evaluates site resultMeans.evaluates, sameSite]
  | _ => exact .pure ⟨trivial, fun _ _ found => found⟩

end Modulations

section

variable [Natives]

/-- A drive with a number for every scalar, and a waveform that lasts for some time. -/
structure Sounding (bindings : ScalarBindings) (drive : Drive) : Prop where
  target : drive.target.Weighed bindings
  waveform : ∃ meaning, Waveform.Means bindings drive.waveform meaning ∧ 0 < meaning.duration

theorem value_at_of_means {waveform : Waveform} {meaning : Signal}
    (means : Waveform.Means bindings waveform meaning) (time : Decimal) :
    waveform.valueAt bindings time = meaning.value time := by
  rw [Waveform.valueAt, means.means]
  rfl

theorem sum_same_strength {first second : Drive} {firstMeaning secondMeaning : Signal}
    {summed : Waveform} (firstSounding : Sounding bindings first)
    (secondSounding : Sounding bindings second)
    (firstMeans : Waveform.Means bindings first.waveform firstMeaning)
    (secondMeans : Waveform.Means bindings second.waveform secondMeaning)
    (sameTarget : first.target.same second.target = true)
    (stands : Stands bindings (firstMeaning.plus secondMeaning) summed) :
    SameStrength bindings [first, second] [⟨first.target, summed⟩] := by
  obtain ⟨meaning, means, refines⟩ := stands
  intro sites site time total found
  rw [Field.strength_cons_iff] at found
  obtain ⟨_, _, firstOk, secondOk, rfl⟩ := found
  rw [Field.strength_single_iff, Drive.strength_ok_iff] at secondOk
  obtain ⟨weights, value, weightsOk, valueOk, rfl⟩ := (Drive.strength_ok_iff _ _).1 firstOk
  obtain ⟨others, other, othersOk, otherOk, rfl⟩ := secondOk
  obtain rfl := Modulation.coefficients_of_same firstSounding.target secondSounding.target
    sameTarget weightsOk othersOk
  rw [value_at_of_means firstMeans] at valueOk
  rw [value_at_of_means secondMeans] at otherOk
  have added := (Signal.plus_value_iff firstMeans.bounded secondMeans.bounded time _).2
    ⟨value, other, valueOk, otherOk, rfl⟩
  rw [Field.strength_single_iff, Drive.strength_ok_iff]
  refine ⟨weights, value + other, weightsOk, ?_, by ring⟩
  rw [value_at_of_means means]
  exact refines.values time _ added

theorem union_same_strength {first second : Drive} {firstSites secondSites : List Location}
    {target : Modulation} (firstSounding : Sounding bindings first)
    (secondSounding : Sounding bindings second) (firstListed : first.target = .scaled firstSites)
    (secondListed : second.target = .scaled secondSites)
    (sameWaveform : first.waveform.same second.waveform = true)
    (unites : SameWeights bindings (.ofLocations (firstSites ++ secondSites)) target) :
    SameStrength bindings [first, second] [⟨target, first.waveform⟩] := by
  have firstWeighed := firstSounding.target
  have secondWeighed := secondSounding.target
  rw [firstListed] at firstWeighed
  rw [secondListed] at secondWeighed
  have numbered := List.forall_mem_append.2 ⟨firstWeighed.2, secondWeighed.2⟩
  obtain ⟨firstMeaning, firstMeans, _⟩ := firstSounding.waveform
  obtain ⟨secondMeaning, secondMeans, _⟩ := secondSounding.waveform
  have alike := Waveform.alike_of_same _ _ _ _ firstMeans secondMeans sameWaveform
  intro sites site time total found
  rw [Field.strength_cons_iff] at found
  obtain ⟨_, _, firstOk, secondOk, rfl⟩ := found
  rw [Field.strength_single_iff, Drive.strength_ok_iff] at secondOk
  obtain ⟨weights, value, weightsOk, valueOk, rfl⟩ := (Drive.strength_ok_iff _ _).1 firstOk
  obtain ⟨others, other, othersOk, otherOk, rfl⟩ := secondOk
  rw [firstListed, Modulation.coefficients_scaled_iff firstWeighed] at weightsOk
  rw [secondListed, Modulation.coefficients_scaled_iff secondWeighed] at othersOk
  obtain ⟨firstInside, rfl⟩ := weightsOk
  obtain ⟨secondInside, rfl⟩ := othersOk
  have sameValue : other = value := by
    rw [value_at_of_means firstMeans] at valueOk
    rw [value_at_of_means secondMeans] at otherOk
    have forth := alike.forth.values time value valueOk
    rwa [otherOk, Except.ok.injEq] at forth
  have united := unites.weights sites _ ((Modulation.coefficients_of_locations_iff numbered _).2
    ⟨List.forall_mem_append.2 ⟨firstInside, secondInside⟩, rfl⟩)
  rw [Field.strength_single_iff, Drive.strength_ok_iff]
  refine ⟨_, value, united, valueOk, ?_⟩
  simp only [Modulation.total_at_append]
  rw [Modulation.weights_add, sameValue, add_mul]

theorem sum_replaces {first second : Drive} {firstMeaning secondMeaning : Signal}
    {summed : Waveform} (firstSounding : Sounding bindings first)
    (secondSounding : Sounding bindings second)
    (firstMeans : Waveform.Means bindings first.waveform firstMeaning)
    (secondMeans : Waveform.Means bindings second.waveform secondMeaning)
    (positive : 0 < firstMeaning.duration)
    (sameTarget : first.target.same second.target = true)
    (stands : Stands bindings (firstMeaning.plus secondMeaning) summed) :
    Replaced (Sounding bindings) (SameStrength bindings) [first, second]
      ⟨first.target, summed⟩ := by
  refine ⟨⟨firstSounding.target, ?_⟩, (sum_same_strength firstSounding secondSounding firstMeans
    secondMeans sameTarget stands).append_right⟩
  obtain ⟨meaning, means, refines⟩ := stands
  refine ⟨meaning, means, ?_⟩
  rw [refines.lasts]
  exact positive.trans_le (le_max_left _ _)

theorem merge_pair_yields {first second : Drive} (firstSounding : Sounding bindings first)
    (secondSounding : Sounding bindings second) :
    Yields (Faithful bindings relation) (mergePair first second) fun result =>
      ∀ merged ∈ result,
        Replaced (Sounding bindings) (SameStrength bindings) [first, second] merged := by
  obtain ⟨firstMeaning, firstMeans, firstPositive⟩ := firstSounding.waveform
  obtain ⟨secondMeaning, secondMeans, secondPositive⟩ := secondSounding.waveform
  unfold mergePair
  split_ifs with sameTarget sameWaveform
  · refine (add_yields _ _ _ _ firstMeans secondMeans firstPositive secondPositive).bind
      fun summed stands => .pure ?_
    simp only [Option.mem_def, Option.some.injEq, forall_eq']
    exact sum_replaces firstSounding secondSounding firstMeans secondMeans firstPositive sameTarget
      stands
  · split
    case h_1 firstSites secondSites firstListed secondListed =>
        have numbered : ∀ location ∈ firstSites ++ secondSites,
            Modulation.Numbered bindings location := by
          have firstWeighed := firstSounding.target
          have secondWeighed := secondSounding.target
          rw [firstListed] at firstWeighed
          rw [secondListed] at secondWeighed
          exact List.forall_mem_append.2 ⟨firstWeighed.2, secondWeighed.2⟩
        refine (modulation_yields (Modulation.weighed_of_locations numbered)).bind
          fun target unites => .pure ?_
        simp only [Option.mem_def, Option.some.injEq, forall_eq']
        exact ⟨⟨unites.weighed, firstSounding.waveform⟩, (union_same_strength firstSounding
          secondSounding firstListed secondListed sameWaveform unites).append_right⟩
    case h_2 => exact .pure (by simp)
  · exact .pure (by simp)

theorem drive_yields {given : Drive} (weighed : given.target.Weighed bindings) {meaning : Signal}
    (means : Waveform.Means bindings given.waveform meaning)
    (lasting : Lasting bindings given.waveform) :
    Yields (Sound bindings) (drive given)
      (Replaced (Sounding bindings) (SameStrength bindings) [given]) := by
  unfold drive
  refine (modulation_yields weighed).bind fun target same => ?_
  refine (waveform_yields _ meaning means lasting).bind fun waveform' stands => .pure ?_
  obtain ⟨found, foundMeans, refines⟩ := stands
  have strength : SameStrength bindings [given] [⟨target, waveform'⟩] := by
    intro sites site time total strong
    rw [Field.strength_single_iff, Drive.strength_ok_iff] at strong ⊢
    obtain ⟨weights, value, weightsOk, valueOk, rfl⟩ := strong
    rw [value_at_of_means means] at valueOk
    refine ⟨weights, value, same.weights _ _ weightsOk, ?_, rfl⟩
    rw [value_at_of_means foundMeans]
    exact refines.values time value valueOk
  refine ⟨⟨same.weighed, found, foundMeans, ?_⟩, strength.append_right⟩
  rw [refines.lasts]
  exact lasting.positive means

/-- Simplifying a field without quotients succeeds, and keeps what its drives add up to. Its
scalars and modulations are as their constructors make them, every scalar has a value, and every
node of a waveform lasts for some time. Then at every site of a register for which all
modulations have weights, and at every time at which all waveforms have values, the drives of
both fields add up to the same strength. -/
theorem canonical_field_keeps_strength {given : Field}
    (formed : ∀ drive ∈ given.drives, drive.Formed)
    (free : ∀ drive ∈ given.drives, drive.Each fun scalar => scalar.quotientFree = true)
    (evaluates : ∀ drive ∈ given.drives,
      drive.Each fun scalar => ∃ value, scalar.eval bindings = .ok value)
    (lasting : ∀ drive ∈ given.drives, ∀ node ∈ drive.waveform.nodes,
      ∃ length, node.duration bindings = .ok length ∧ 0 < length) :
    ∃ result, afresh (field given) = .ok result ∧ ∀ sites site time,
      (∀ drive ∈ given.drives, ∃ weights,
        drive.target.coefficients bindings sites = .ok weights) →
      (∀ drive ∈ given.drives, ∃ value, drive.waveform.valueAt bindings time = .ok value) →
      ∃ total, given.strengthAt bindings sites site time = .ok total ∧
        result.strengthAt bindings sites site time = .ok total := by
  have each : ∀ item ∈ given.drives, Yields (Sound bindings) (drive item)
      (Replaced (Sounding bindings) (SameStrength bindings) [item]) := by
    intro item member
    obtain ⟨placed, tidied⟩ := formed item member
    obtain ⟨weightsFree, waveformFree⟩ := free item member
    obtain ⟨weightsOk, waveformOk⟩ := evaluates item member
    have weighed : item.target.Weighed bindings := by
      cases found : item.target with
      | scaled listed =>
          rw [found] at placed weightsFree weightsOk
          obtain ⟨⟨given, rfl⟩, weightsTidy⟩ := placed
          refine ⟨Modulation.place_all_single given, fun location listedThere => ?_⟩
          obtain ⟨number, numberOk⟩ := weightsOk location listedThere
          exact ⟨number, weightsTidy location listedThere,
            Scalar.exact_of_quotient_free _ (weightsFree location listedThere), numberOk⟩
      | _ => trivial
    have proper : Waveform.Proper bindings item.waveform := by
      intro node nodeMember scalar scalarMember
      obtain ⟨number, numberOk⟩ := waveformOk node nodeMember scalar scalarMember
      exact ⟨number, tidied node nodeMember scalar scalarMember,
        Scalar.exact_of_quotient_free _ (waveformFree node nodeMember scalar scalarMember), numberOk⟩
    have lastingHere : Lasting bindings item.waveform := lasting item member
    obtain ⟨length, lasts, _⟩ := ((Waveform.each_node_iff _ _).1 lastingHere).1
    obtain ⟨meaning, means, rfl⟩ := Waveform.signal_of_duration lasts
    exact drive_yields weighed ⟨proper, means⟩ lastingHere
  have summed : ∀ first second, Sounding bindings first → Sounding bindings second →
      first.target.same second.target = true → Replaced (Sounding bindings) (SameStrength bindings)
        [first, second] ⟨first.target, .add first.waveform second.waveform⟩ := by
    intro first second firstSounding secondSounding same
    obtain ⟨firstMeaning, firstMeans, positive⟩ := firstSounding.waveform
    obtain ⟨secondMeaning, secondMeans, _⟩ := secondSounding.waveform
    exact sum_replaces firstSounding secondSounding firstMeans secondMeans positive same
      (stands_itself ((Waveform.add_means_iff _ _ _).2
        ⟨firstMeaning, secondMeaning, firstMeans, secondMeans, rfl⟩))
  have yields := field_merges (yields_stepwise (Sound bindings)) SameStrength.merging
    (fun _ _ => merge_pair_yields) each summed
  obtain ⟨result, made, _, merged⟩ := yields.afresh remembers_nothing
  refine ⟨result, made, fun sites site time weighs valued => ?_⟩
  obtain ⟨total, totalOk⟩ := Field.exists_strength weighs valued
  exact ⟨total, totalOk, merged.related sites site time total totalOk⟩

end

/-- Two drives list a site in common and come to share their waveform. -/
def sharedRamp : Field :=
  ⟨[⟨.scaled [⟨0, .variable "w"⟩, ⟨2, .literal 1⟩], .ramp (.literal 0) (.literal 4) (.literal 2)⟩,
    ⟨.uniform, .constant (.literal 1) (.literal 2)⟩,
    ⟨.scaled [⟨1, .literal 7⟩, ⟨2, .minimum [.literal 3, .variable "w"]⟩],
      .ramp (.literal 0) (.literal 4) (.minimum [.literal 2, .literal 3])⟩]⟩

theorem canonical_field_keeps_strength_shared_ramp :
    ∃ result, afresh (field sharedRamp) = .ok result ∧
      result.strengthAt (.ofList [("w", 5)]) 3 2 1 = .ok 9 := by
  have listed : ∀ first second : Location, first.site < second.site → first.site.toNat < 2 ^ 63 →
      second.site.toNat < 2 ^ 63 → (∀ location ∈ [first, second], location.weight.Formed) →
      (Modulation.scaled [first, second]).Formed := by
    intro first second before firstSmall secondSmall
    exact Modulation.formed_of_ordered
      (Modulation.near_of_small (List.forall_mem_cons.2
        ⟨firstSmall, List.forall_mem_singleton.2 secondSmall⟩))
      (List.pairwise_pair.2 before)
  have formed : ∀ drive ∈ sharedRamp.drives, drive.Formed := by
    simp only [sharedRamp, List.forall_mem_cons, List.not_mem_nil, false_imp_iff, implies_true,
      and_true]
    refine ⟨⟨listed _ _ ?_ ?_ ?_ ?_, ?_⟩, ⟨trivial, ?_⟩, ⟨listed _ _ ?_ ?_ ?_ ?_, ?_⟩⟩
    all_goals decide
  obtain ⟨result, made, strength⟩ :=
    @canonical_field_keeps_strength (.ofList [("w", 5)]) _ sharedRamp formed (by decide)
      (by decide) (by decide)
  obtain ⟨total, totalOk, resultOk⟩ := strength 3 2 1 (by decide) (by decide)
  have nine : sharedRamp.strengthAt (.ofList [("w", 5)]) 3 2 1 = .ok 9 := rfl
  rw [nine, Except.ok.injEq] at totalOk
  exact ⟨result, made, totalOk ▸ resultOk⟩

end Canonical

end Analog
