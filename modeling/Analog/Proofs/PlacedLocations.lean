import Analog.Modulation
import Mathlib.Algebra.Order.Ring.Int
import Mathlib.Data.List.Induction

/-!
# Locations in their places

The locations of a modulation are gathered under their sites and then put in order. No site is
lost and none is listed twice. The order is that of the sites as numbers if no two of them are
so far apart that their difference wraps; without this, locations that are put in order once
more may change their places.
-/

set_option autoImplicit false

namespace Analog

theorem site_to_signed (site : UInt64) : site.toInt64.toInt = (site.toNat : Int).bmod (2 ^ 64) := by
  rw [← Int64.toInt_toBitVec, BitVec.toInt_eq_toNat_bmod]
  rfl

theorem Location.before_iff {left right : Location}
    (leftNear : left.site.toNat < right.site.toNat + 2 ^ 63)
    (rightNear : right.site.toNat < left.site.toNat + 2 ^ 63) :
    left.before right = true ↔ left.site < right.site := by
  unfold before
  rw [decide_eq_true_iff, Int64.lt_iff_toInt_lt, Int64.toInt_sub, Int64.toInt_zero,
    site_to_signed, site_to_signed, Int.bmod_sub_bmod, Int.sub_bmod_bmod,
    UInt64.lt_iff_toNat_lt, Int.bmod_def]
  split_ifs
  · omega
  · omega

namespace Modulation

def Near (locations : List Location) : Prop :=
  ∀ left ∈ locations, ∀ right ∈ locations, left.site.toNat < right.site.toNat + 2 ^ 63

def Ordered (locations : List Location) : Prop :=
  locations.Pairwise fun left right => left.site < right.site

def Single (locations : List Location) : Prop :=
  locations.Pairwise fun left right => left.site ≠ right.site

theorem Near.of_sites {locations others : List Location} (near : Near locations)
    (sites : ∀ other ∈ others, ∃ location ∈ locations, location.site = other.site) :
    Near others := by
  intro left leftMember right rightMember
  rcases sites left leftMember with ⟨first, firstMember, firstSite⟩
  rcases sites right rightMember with ⟨second, secondMember, secondSite⟩
  rw [← firstSite, ← secondSite]
  exact near first firstMember second secondMember

theorem near_of_small {locations : List Location}
    (small : ∀ location ∈ locations, location.site.toNat < 2 ^ 63) : Near locations := by
  intro left leftMember right _
  have := small left leftMember
  omega

theorem Ordered.single {locations : List Location} (ordered : Ordered locations) :
    Single locations :=
  ordered.imp fun before => UInt64.ne_of_lt before

theorem gather_all_append (before : List Location) (last : Location) :
    gatherAll (before ++ [last]) = gatherLocation last (gatherAll before) := by
  unfold gatherAll
  rw [List.foldl_append, List.foldl_cons, List.foldl_nil]

theorem mem_sites_gather_location (location : Location) (gathered : List Location) (site : UInt64) :
    site ∈ (gatherLocation location gathered).map (·.site) ↔
      site = location.site ∨ site ∈ gathered.map (·.site) := by
  induction gathered with
  | nil => simp [gatherLocation]
  | cons head rest ih =>
      unfold gatherLocation
      split_ifs with same
      · simp only [List.map_cons, List.mem_cons, same, or_self_left]
      · rw [List.map_cons, List.mem_cons, ih, List.map_cons, List.mem_cons]
        exact or_left_comm

theorem mem_sites_gather_all (locations : List Location) (site : UInt64) :
    site ∈ (gatherAll locations).map (·.site) ↔ site ∈ locations.map (·.site) := by
  induction locations using List.reverseRecOn with
  | nil => rfl
  | append_singleton before last ih =>
      rw [gather_all_append, mem_sites_gather_location, ih]
      simp [or_comm]

theorem gather_location_single {location : Location} {gathered : List Location}
    (single : Single gathered) : Single (gatherLocation location gathered) := by
  unfold Single at single ⊢
  induction gathered with
  | nil => simp [gatherLocation]
  | cons head rest ih =>
      obtain ⟨headApart, restSingle⟩ := List.pairwise_cons.1 single
      unfold gatherLocation
      split_ifs with same
      · exact List.pairwise_cons.2 ⟨headApart, restSingle⟩
      · refine List.pairwise_cons.2 ⟨fun other member => ?_, ih restSingle⟩
        rcases (mem_sites_gather_location _ _ _).1 (List.mem_map_of_mem member) with new | earlier
        · rw [new]
          exact Ne.symm same
        · obtain ⟨known, knownMember, sameSite⟩ := List.mem_map.1 earlier
          rw [← sameSite]
          exact headApart known knownMember

theorem gather_all_single (locations : List Location) : Single (gatherAll locations) := by
  induction locations using List.reverseRecOn with
  | nil => exact List.Pairwise.nil
  | append_singleton before last ih =>
      rw [gather_all_append]
      exact gather_location_single ih

theorem gather_location_new {location : Location} {gathered : List Location}
    (new : ∀ other ∈ gathered, other.site ≠ location.site) :
    gatherLocation location gathered = gathered ++ [location] := by
  induction gathered with
  | nil => rfl
  | cons head rest ih =>
      rw [gatherLocation, if_neg (Ne.symm (new head (by simp))),
        ih fun other member => new other (by simp [member]), List.cons_append]

theorem gather_all_of_single {locations : List Location} (single : Single locations) :
    gatherAll locations = locations := by
  induction locations using List.reverseRecOn with
  | nil => rfl
  | append_singleton before last ih =>
      obtain ⟨beforeSingle, _, lastApart⟩ := List.pairwise_append.1 single
      rw [gather_all_append, ih beforeSingle]
      exact gather_location_new fun other member => lastApart other member last (by simp)

/-- What holds of given locations and survives an addition holds of gathered ones. -/
theorem gather_all_each {good : Location → Prop}
    (added : ∀ first second, good first → good second →
      good ⟨first.site, .add first.weight second.weight⟩)
    {locations : List Location} (each : ∀ location ∈ locations, good location) :
    ∀ location ∈ gatherAll locations, good location := by
  have gathered : ∀ (location : Location) (gathered : List Location), good location →
      (∀ other ∈ gathered, good other) →
      ∀ other ∈ gatherLocation location gathered, good other := by
    intro location gathered locationGood
    induction gathered with
    | nil => simpa [gatherLocation] using locationGood
    | cons head rest ih =>
        intro allGood
        obtain ⟨headGood, restGood⟩ := List.forall_mem_cons.1 allGood
        unfold gatherLocation
        split_ifs
        · exact List.forall_mem_cons.2 ⟨added _ _ headGood locationGood, restGood⟩
        · exact List.forall_mem_cons.2 ⟨headGood, ih restGood⟩
  induction locations using List.reverseRecOn with
  | nil => exact each
  | append_singleton before last ih =>
      rw [gather_all_append]
      exact gathered last _ (each last (by simp))
        (ih fun location member => each location (by simp [member]))

theorem place_location_perm (location : Location) (placed : List Location) :
    (placeLocation location placed).Perm (location :: placed) := by
  induction placed with
  | nil => exact .refl _
  | cons last earlier ih =>
      unfold placeLocation
      split_ifs
      · exact (ih.cons last).trans (.swap location last earlier)
      · exact .refl _

theorem sort_locations_append (before : List Location) (last : Location) :
    sortLocations (before ++ [last]) =
      (placeLocation last (sortLocations before).reverse).reverse := by
  unfold sortLocations
  rw [List.foldl_append, List.foldl_cons, List.foldl_nil, List.reverse_reverse]

theorem sort_locations_perm (locations : List Location) :
    (sortLocations locations).Perm locations := by
  induction locations using List.reverseRecOn with
  | nil => exact .refl _
  | append_singleton before last ih =>
      rw [sort_locations_append]
      have placed := place_location_perm last (sortLocations before).reverse
      have kept := ((List.reverse_perm _).trans ih).cons last
      exact (List.reverse_perm _).trans
        (placed.trans (kept.trans (List.perm_append_singleton last before).symm))

/-- Locations with different sites, none too far from another, come to stand in order. The list
that is built stands the other way round. -/
theorem place_location_ordered {location : Location} {placed : List Location}
    (near : Near (location :: placed)) (new : ∀ other ∈ placed, other.site ≠ location.site)
    (ordered : placed.Pairwise fun later earlier => earlier.site < later.site) :
    (placeLocation location placed).Pairwise fun later earlier => earlier.site < later.site := by
  induction placed with
  | nil => simp [placeLocation]
  | cons last earlier ih =>
      obtain ⟨lastAfter, earlierOrdered⟩ := List.pairwise_cons.1 ordered
      have compares := Location.before_iff (near location (by simp) last (by simp))
        (near last (by simp) location (by simp))
      unfold placeLocation
      split_ifs with before
      · have placedBefore := compares.1 before
        refine List.pairwise_cons.2 ⟨fun other member => ?_, ih ?_ ?_ earlierOrdered⟩
        · rcases List.mem_cons.1 ((place_location_perm _ _).mem_iff.1 member) with rfl | known
          · exact placedBefore
          · exact lastAfter other known
        · exact near.of_sites fun other member => ⟨other, by
            rcases List.mem_cons.1 member with rfl | known
            · simp
            · simp [known], rfl⟩
        · exact fun other member => new other (by simp [member])
      · have after : last.site < location.site :=
          UInt64.lt_of_le_of_ne (UInt64.not_lt.1 fun less => before (compares.2 less))
            (new last (by simp))
        refine List.pairwise_cons.2 ⟨List.forall_mem_cons.2 ⟨after, fun other member => ?_⟩, ordered⟩
        exact UInt64.lt_trans (lastAfter other member) after

theorem sort_locations_ordered {locations : List Location} (near : Near locations)
    (single : Single locations) : Ordered (sortLocations locations) := by
  induction locations using List.reverseRecOn with
  | nil => exact List.Pairwise.nil
  | append_singleton before last ih =>
      obtain ⟨beforeSingle, _, lastApart⟩ := List.pairwise_append.1 single
      have kept : ∀ other ∈ (sortLocations before).reverse, other ∈ before := fun other member =>
        (sort_locations_perm before).mem_iff.1 (List.mem_reverse.1 member)
      have earlier := ih (near.of_sites fun other member => ⟨other, by simp [member], rfl⟩)
        beforeSingle
      unfold Ordered at earlier ⊢
      rw [sort_locations_append, List.pairwise_reverse]
      refine place_location_ordered ?_ (fun other member => ?_) (List.pairwise_reverse.2 earlier)
      · refine near.of_sites fun other member => ⟨other, ?_, rfl⟩
        rcases List.mem_cons.1 member with rfl | known
        · simp
        · simp [kept other known]
      · exact lastApart other (kept other member) last (by simp)

theorem sort_locations_of_ordered {locations : List Location} (near : Near locations)
    (ordered : Ordered locations) : sortLocations locations = locations := by
  induction locations using List.reverseRecOn with
  | nil => rfl
  | append_singleton before last ih =>
      obtain ⟨beforeOrdered, _, lastAfter⟩ := List.pairwise_append.1 ordered
      have stays : placeLocation last before.reverse = last :: before.reverse := by
        cases reversed : before.reverse with
        | nil => rfl
        | cons neighbour earlier =>
            have member : neighbour ∈ before := List.mem_reverse.1 (by simp [reversed])
            have compares := Location.before_iff
              (near last (by simp) neighbour (by simp [member]))
              (near neighbour (by simp [member]) last (by simp))
            rw [placeLocation, if_neg]
            rw [compares]
            exact UInt64.lt_asymm (lastAfter neighbour member last (by simp))
      rw [sort_locations_append, ih _ beforeOrdered, stays, List.reverse_cons, List.reverse_reverse]
      exact near.of_sites fun other member => ⟨other, by simp [member], rfl⟩

theorem of_locations_eq (locations : List Location) :
    ofLocations locations = .scaled (placeAll locations) := rfl

theorem place_all_perm (locations : List Location) :
    (placeAll locations).Perm (gatherAll locations) :=
  sort_locations_perm _

theorem mem_sites_place_all (locations : List Location) (site : UInt64) :
    site ∈ (placeAll locations).map (·.site) ↔ site ∈ locations.map (·.site) := by
  rw [((place_all_perm locations).map _).mem_iff, mem_sites_gather_all]

theorem place_all_single (locations : List Location) : Single (placeAll locations) :=
  (place_all_perm locations).symm.pairwise (gather_all_single locations) fun apart => apart.symm

theorem place_all_each {good : Location → Prop}
    (added : ∀ first second, good first → good second →
      good ⟨first.site, .add first.weight second.weight⟩)
    {locations : List Location} (each : ∀ location ∈ locations, good location) :
    ∀ location ∈ placeAll locations, good location := by
  intro location member
  exact gather_all_each added each location ((place_all_perm _).mem_iff.1 member)

theorem Near.gather_all {locations : List Location} (near : Near locations) :
    Near (gatherAll locations) := by
  refine near.of_sites fun other member => ?_
  exact List.mem_map.1 ((mem_sites_gather_all _ _).1 (List.mem_map_of_mem member))

theorem Near.place_all {locations : List Location} (near : Near locations) :
    Near (placeAll locations) := by
  refine near.of_sites fun other member => ?_
  exact List.mem_map.1 ((mem_sites_place_all _ _).1 (List.mem_map_of_mem member))

theorem place_all_ordered {locations : List Location} (near : Near locations) :
    Ordered (placeAll locations) :=
  sort_locations_ordered near.gather_all (gather_all_single _)

theorem place_all_of_ordered {locations : List Location} (near : Near locations)
    (ordered : Ordered locations) : placeAll locations = locations := by
  unfold placeAll
  rw [gather_all_of_single ordered.single, sort_locations_of_ordered near ordered]

end Modulation

end Analog
