import Analog.Proofs.CompiledTasks
import Mathlib.Data.List.GetD

/-!
# Sites of tiled registers

The sites of a tiled register, the mappings of its sites and the weights of its sites are listed
separately, copy by copy. All three lists agree: the mapping of a site tells from which copy and
which site of the base register it comes, and its weight is that of the base site.
-/

set_option autoImplicit false

namespace Analog

section Rows

variable {α β : Type}

/-- In rows of one width, an item is found by its row and its place in it. -/
theorem get_of_rows (items : List α) (row : α → List β) (width : Nat)
    (even : ∀ item ∈ items, (row item).length = width) (index : Nat) {place : Nat}
    (inside : place < width) :
    (items.flatMap row)[index * width + place]? =
      items[index]?.bind fun item => (row item)[place]? := by
  induction items generalizing index with
  | nil => rfl
  | cons item rest ih =>
      have size := even item List.mem_cons_self
      rw [List.flatMap_cons]
      cases index with
      | zero =>
          rw [Nat.zero_mul, Nat.zero_add, List.getElem?_append_left (by omega)]
          rfl
      | succ index =>
          have later : (index + 1) * width + place = (row item).length + (index * width + place) := by
            rw [size, Nat.succ_mul]
            omega
          rw [later, List.getElem?_append_right (Nat.le_add_right _ _), Nat.add_sub_cancel_left,
            ih fun other member => even other (List.mem_cons_of_mem _ member)]
          rfl

theorem range_of_rows (rows width : Nat) :
    ((List.range rows).flatMap fun row => (List.range width).map fun place => row * width + place) =
      List.range (rows * width) := by
  induction rows with
  | zero => rw [Nat.zero_mul, List.range_zero, List.flatMap_nil]
  | succ rows ih =>
      rw [List.range_succ, List.flatMap_append, ih, List.flatMap_singleton, Nat.succ_mul,
        List.range_add]

end Rows

namespace Tiling

variable (tiling : Tiling)

theorem sites_of_mappings : tiling.mappings.map (·.site) = List.range tiling.size := by
  rw [mappings, List.map_flatMap]
  simp only [List.map_map, Function.comp_def]
  exact range_of_rows _ _

variable {tiling}

theorem mem_mappings_iff {mapping : SiteMapping} :
    mapping ∈ tiling.mappings ↔ mapping.cluster < tiling.clusters ∧
      mapping.baseSite < tiling.base.size ∧
      mapping.site = mapping.cluster * tiling.base.size + mapping.baseSite := by
  obtain ⟨cluster, site, baseSite⟩ := mapping
  simp only [mappings, List.mem_flatMap, List.mem_map, List.mem_range, SiteMapping.mk.injEq]
  constructor
  · rintro ⟨_, clusterInside, _, baseInside, rfl, rfl, rfl⟩
    exact ⟨clusterInside, baseInside, rfl⟩
  · rintro ⟨clusterInside, baseInside, rfl⟩
    exact ⟨cluster, clusterInside, baseSite, baseInside, rfl, rfl, rfl⟩

theorem mapping_at_site {mapping : SiteMapping} (member : mapping ∈ tiling.mappings) :
    tiling.mappings[mapping.site]? = some mapping := by
  obtain ⟨clusterInside, baseInside, same⟩ := mem_mappings_iff.1 member
  rw [same, mappings, get_of_rows _ _ tiling.base.size (by simp) _ baseInside,
    List.getElem?_range clusterInside, Option.bind_some, List.getElem?_map,
    List.getElem?_range baseInside, Option.map_some, ← same]

theorem site_at_mapping {mapping : SiteMapping} (member : mapping ∈ tiling.mappings) :
    ∃ site offset, tiling.base.sites[mapping.baseSite]? = some site ∧
      tiling.offsets[mapping.cluster]? = some offset ∧
      tiling.sites[mapping.site]? = some ⟨site.position.shift offset, site.filled⟩ := by
  obtain ⟨clusterInside, baseInside, same⟩ := mem_mappings_iff.1 member
  refine ⟨_, _, List.getElem?_eq_getElem baseInside, List.getElem?_eq_getElem clusterInside, ?_⟩
  rw [same, sites, get_of_rows _ _ tiling.base.size (by simp [Register.size]) _ baseInside,
    List.getElem?_eq_getElem clusterInside, Option.bind_some, List.getElem?_map,
    List.getElem?_eq_getElem baseInside, Option.map_some]

theorem mapping_of_site {first second : SiteMapping} (firstMember : first ∈ tiling.mappings)
    (secondMember : second ∈ tiling.mappings) (same : first.site = second.site) :
    first = second := by
  have found := mapping_at_site firstMember
  rw [same, mapping_at_site secondMember, Option.some.injEq] at found
  exact found.symm

/-- Writing at numbers that are all different leaves what is written. -/
theorem get_written (value : SiteMapping → Decimal) (mappings : List SiteMapping)
    (once : (mappings.map (·.site)).Nodup) (start : List Decimal)
    (inside : ∀ mapping ∈ mappings, mapping.site < start.length) :
    let written := mappings.foldl (fun spread mapping => spread.set mapping.site (value mapping)) start
    (∀ mapping ∈ mappings, written[mapping.site]? = some (value mapping)) ∧
      ∀ site, site ∉ mappings.map (·.site) → written[site]? = start[site]? := by
  induction mappings generalizing start with
  | nil => exact ⟨fun mapping member => absurd member List.not_mem_nil, fun _ _ => rfl⟩
  | cons mapping rest ih =>
      obtain ⟨notLater, restOnce⟩ := List.nodup_cons.1 once
      obtain ⟨later, untouched⟩ := ih restOnce (start.set mapping.site (value mapping))
        fun other member => by
          rw [List.length_set]
          exact inside other (List.mem_cons_of_mem _ member)
      constructor
      · intro other member
        rcases List.mem_cons.1 member with rfl | restMember
        · exact (untouched _ notLater).trans
            (List.getElem?_set_self (inside _ List.mem_cons_self))
        · exact later other restMember
      · intro site absent
        rw [List.map_cons, List.mem_cons, not_or] at absent
        exact (untouched site absent.2).trans (List.getElem?_set_ne (Ne.symm absent.1))

/-- Every site has the value of the base site for which it stands. -/
theorem spread_at_mapping {values : List Decimal} (each : values.length = tiling.base.size)
    {mapping : SiteMapping} (member : mapping ∈ tiling.mappings) :
    ∃ value, values[mapping.baseSite]? = some value ∧
      (tiling.spread values)[mapping.site]? = some value := by
  have baseInside : mapping.baseSite < values.length := by
    rw [each]
    exact (mem_mappings_iff.1 member).2.1
  refine ⟨values[mapping.baseSite], List.getElem?_eq_getElem baseInside, ?_⟩
  have once : (tiling.mappings.map (·.site)).Nodup := by
    rw [sites_of_mappings]
    exact List.nodup_range
  have inside : ∀ mapping ∈ tiling.mappings,
      mapping.site < (List.replicate tiling.size (0 : Decimal)).length := by
    intro other otherMember
    rw [List.length_replicate, ← List.mem_range, ← sites_of_mappings]
    exact List.mem_map_of_mem otherMember
  rw [spread, (get_written (fun mapping => values.getD mapping.baseSite 0) _ once _ inside).1
    mapping member, List.getD_eq_getElem _ _ baseInside]

/-- Every site of a tiled register has the weight of the base site for which it stands. -/
theorem weight_at_mapping {bindings : ScalarBindings} {modulation : Modulation}
    {weights : List Decimal}
    (evaluates : modulation.coefficients bindings tiling.base.size = .ok weights) :
    ∃ spread, (Layout.tiled tiling).coefficients bindings modulation = .ok spread ∧
      spread.length = tiling.size ∧
      ∀ mapping ∈ tiling.mappings, ∃ weight, weights[mapping.baseSite]? = some weight ∧
        spread[mapping.site]? = some weight := by
  refine ⟨tiling.spread weights, ?_, tiling.length_spread weights, fun mapping =>
    spread_at_mapping (Modulation.coefficients_length evaluates)⟩
  rw [Layout.coefficients, evaluates]
  rfl

/-- The mappings of a tiled register count its sites through. Each of them names the site of the
base register and the copy from which the site with its number comes, for every site of every
copy there is one, and no number is used for two of them. A modulation that has weights for the
base register gives every site the weight of its base site, and otherwise fails in the same way. -/
theorem mappings_faithful (tiling : Tiling) :
    tiling.mappings.map (·.site) = List.range tiling.size ∧ tiling.sites.length = tiling.size ∧
      (∀ mapping ∈ tiling.mappings, ∃ site offset,
        tiling.base.sites[mapping.baseSite]? = some site ∧
        tiling.offsets[mapping.cluster]? = some offset ∧
        tiling.sites[mapping.site]? = some ⟨site.position.shift offset, site.filled⟩) ∧
      (∀ cluster < tiling.clusters, ∀ baseSite < tiling.base.size,
        ∃ site, ⟨cluster, site, baseSite⟩ ∈ tiling.mappings) ∧
      (∀ first ∈ tiling.mappings, ∀ second ∈ tiling.mappings,
        (first.cluster, first.baseSite) ≠ (second.cluster, second.baseSite) →
          first.site ≠ second.site) ∧
      ∀ bindings modulation,
        (∀ weights, modulation.coefficients bindings tiling.base.size = .ok weights →
          ∃ spread, (Layout.tiled tiling).coefficients bindings modulation = .ok spread ∧
            spread.length = tiling.size ∧
            ∀ mapping ∈ tiling.mappings, ∃ weight, weights[mapping.baseSite]? = some weight ∧
              spread[mapping.site]? = some weight) ∧
        ∀ failure, modulation.coefficients bindings tiling.base.size = .error failure →
          (Layout.tiled tiling).coefficients bindings modulation = .error failure := by
  refine ⟨tiling.sites_of_mappings, tiling.length_sites, fun _ => site_at_mapping,
    fun cluster clusterInside baseSite baseInside => ?_, ?_, fun bindings modulation => ⟨?_, ?_⟩⟩
  · exact ⟨cluster * tiling.base.size + baseSite,
      mem_mappings_iff.2 ⟨clusterInside, baseInside, rfl⟩⟩
  · intro first firstMember second secondMember different same
    rw [mapping_of_site firstMember secondMember same] at different
    exact different rfl
  · exact fun weights => weight_at_mapping
  · intro failure fails
    rw [Layout.coefficients, fails]
    rfl

/-- The last site of three copies of a pair. -/
example : (grid (.chain 2 4) 6 3 1).mappings[5]? = some ⟨2, 5, 1⟩ := by decide

end Tiling

end Analog
