import Analog.Proofs.AssignedPrograms
import Analog.Proofs.RememberedWork

/-!
# Equality of channels

Modulations are compared by their weights, so equality of tidy ones is an equivalence, and
equal ones have equal fingerprints: operands of a minimum or maximum may stand in another
order, and their fingerprints are mixed so that the order does not matter. A set of channels
therefore lists each channel once.
-/

set_option autoImplicit false

namespace Analog

theorem Fingerprint.unordered_of_perm (running : UInt64) {words others : List UInt64}
    (perm : words.Perm others) : unordered running words = unordered running others := by
  have sums : words.foldl (· + ·) 0 = others.foldl (· + ·) 0 :=
    perm.foldl_eq' (fun first _ second _ sum => by
      rw [UInt64.add_assoc, UInt64.add_comm first, ← UInt64.add_assoc]) 0
  have masks : words.foldl (· ^^^ ·) 0 = others.foldl (· ^^^ ·) 0 :=
    perm.foldl_eq' (fun first _ second _ mask => by
      rw [UInt64.xor_assoc, UInt64.xor_comm first, ← UInt64.xor_assoc]) 0
  rw [unordered, unordered, perm.length_eq, sums, masks]

namespace Scalar

theorem fingerprints_eq_map (operands : List Scalar) :
    fingerprints operands = operands.map fingerprint := by
  induction operands with
  | nil => rfl
  | cons operand rest ih => rw [fingerprints, ih, List.map_cons]

theorem bound_fingerprint_of_same {bound other : Option Scalar}
    (ih : ∀ given ∈ bound, ∀ other, given.same other = true → given.fingerprint = other.fingerprint)
    (equal : sameBound bound other = true) : boundFingerprint bound = boundFingerprint other := by
  rw [same_bound_iff] at equal
  cases equal with
  | none => rfl
  | some equal => exact ih _ rfl _ equal

/-- Equal operands in any order have the same fingerprints, in some order. -/
theorem fingerprints_of_same {operands others : List Scalar}
    (different : operands.Pairwise fun left right => left.same right = false)
    (tidied : ∀ operand ∈ operands, operand.tidy = true)
    (ih : ∀ operand ∈ operands, ∀ other, operand.same other = true →
      operand.fingerprint = other.fingerprint)
    (sameLength : operands.length = others.length)
    (within : ∀ operand ∈ operands, ∃ other ∈ others, operand.same other = true) :
    (fingerprints operands).Perm (fingerprints others) := by
  obtain ⟨matched, perm, each⟩ := exists_matching_of_distinct operands others different
    (fun operand member other => same_symm operand other (tidied operand member)) sameLength within
  rw [fingerprints_eq_map, fingerprints_eq_map,
    ← Outcome.map_eq_of_related (Outcome.related_of_mem each fun operand member other equal =>
      (ih operand member other equal).symm) fun _ _ same => same]
  exact perm.map fingerprint

theorem fingerprint_of_same (first second : Scalar) (tidied : first.tidy = true)
    (equal : first.same second = true) : first.fingerprint = second.fingerprint := by
  induction first using Scalar.parts_induction generalizing second with
  | literal value => rw [(literal_same_iff _ _).1 equal]
  | named name => rw [(variable_same_iff _ _).1 equal]
  | assigned name value => rw [(assigned_same_iff _ _ _).1 equal]
  | negative operand ih =>
      obtain ⟨other, rfl, otherSame⟩ := (negative_same_iff _ _).1 equal
      rw [fingerprint, fingerprint, ih other tidied otherSame]
  | add left right leftIh rightIh =>
      obtain ⟨_, _, rfl, leftSame, rightSame⟩ := (add_same_iff _ _ _).1 equal
      rw [tidy, Bool.and_eq_true] at tidied
      rw [fingerprint, fingerprint, leftIh _ tidied.1 leftSame, rightIh _ tidied.2 rightSame]
  | mul left right leftIh rightIh =>
      obtain ⟨_, _, rfl, leftSame, rightSame⟩ := (mul_same_iff _ _ _).1 equal
      rw [tidy, Bool.and_eq_true] at tidied
      rw [fingerprint, fingerprint, leftIh _ tidied.1 leftSame, rightIh _ tidied.2 rightSame]
  | div left right leftIh rightIh =>
      obtain ⟨_, _, rfl, leftSame, rightSame⟩ := (div_same_iff _ _ _).1 equal
      rw [tidy, Bool.and_eq_true] at tidied
      rw [fingerprint, fingerprint, leftIh _ tidied.1 leftSame, rightIh _ tidied.2 rightSame]
  | min operands ih =>
      obtain ⟨others, rfl, sameLength, within⟩ := (min_same_iff _ _).1 equal
      rw [tidy, Bool.and_eq_true, distinct_iff, tidy_all_iff] at tidied
      rw [fingerprint, fingerprint]
      exact Fingerprint.unordered_of_perm _ (fingerprints_of_same tidied.1 tidied.2
        (fun operand member other => ih operand member other (tidied.2 operand member)) sameLength
        within)
  | max operands ih =>
      obtain ⟨others, rfl, sameLength, within⟩ := (max_same_iff _ _).1 equal
      rw [tidy, Bool.and_eq_true, distinct_iff, tidy_all_iff] at tidied
      rw [fingerprint, fingerprint]
      exact Fingerprint.unordered_of_perm _ (fingerprints_of_same tidied.1 tidied.2
        (fun operand member other => ih operand member other (tidied.2 operand member)) sameLength
        within)
  | slice extent start stop extentIh startIh stopIh =>
      obtain ⟨_, _, _, rfl, startSame, stopSame, extentSame⟩ := (slice_same_iff _ _ _ _).1 equal
      rw [tidy, Bool.and_eq_true, Bool.and_eq_true, tidy_bound_iff, tidy_bound_iff] at tidied
      obtain ⟨⟨extentTidy, startTidy⟩, stopTidy⟩ := tidied
      rw [fingerprint, fingerprint, extentIh _ extentTidy extentSame,
        bound_fingerprint_of_same (fun given member other =>
          startIh given member other (startTidy given member)) startSame,
        bound_fingerprint_of_same (fun given member other =>
          stopIh given member other (stopTidy given member)) stopSame]

end Scalar

namespace Modulation

/-- Equal modulations are the same up to the weights of listed sites. -/
theorem same_iff (first second : Modulation) :
    first.same second = true ↔ first = second ∧ (∀ locations, first ≠ .scaled locations) ∨
      ∃ locations others, first = .scaled locations ∧ second = .scaled others ∧
        List.Forall₂ (fun location other => location.site = other.site ∧
          location.weight.same other.weight = true) locations others := by
  have listed : ∀ locations others : List Location, sameLocations locations others = true ↔
      List.Forall₂ (fun location other => location.site = other.site ∧
        location.weight.same other.weight = true) locations others := by
    intro locations
    induction locations with
    | nil => intro others; cases others <;> simp [sameLocations]
    | cons location rest ih =>
        intro others
        cases others <;> simp [sameLocations, ih, and_assoc]
  cases first <;> cases second <;> simp [same, listed]

theorem same_refl (modulation : Modulation) : modulation.same modulation = true := by
  rw [same_iff]
  cases modulation with
  | scaled locations =>
      exact Or.inr ⟨locations, locations, rfl, rfl, List.forall₂_same.2 fun location _ =>
        ⟨rfl, location.weight.same_refl⟩⟩
  | _ => simp

theorem same_trans {first second third : Modulation} (equal : first.same second = true)
    (next : second.same third = true) : first.same third = true := by
  rw [same_iff] at equal next
  rcases equal with ⟨rfl, _⟩ | ⟨locations, others, rfl, rfl, each⟩
  · exact (same_iff _ _).2 next
  · rcases next with ⟨_, notScaled⟩ | ⟨_, thirds, same, rfl, nextEach⟩
    · exact absurd rfl (notScaled others)
    · rw [scaled.injEq] at same
      subst same
      refine (same_iff _ _).2 (Or.inr ⟨locations, thirds, rfl, rfl, ?_⟩)
      exact Outcome.related_of_common each.flip nextEach fun _ _ _ related nextRelated =>
        ⟨related.1.trans nextRelated.1, Scalar.same_trans _ _ _ related.2 nextRelated.2⟩

theorem same_symm {first second : Modulation} (tidied : first.EachWeight (·.tidy))
    (equal : first.same second = true) : second.same first = true := by
  rcases (same_iff _ _).1 equal with ⟨rfl, _⟩ | ⟨locations, others, rfl, rfl, each⟩
  · exact equal
  · refine (same_iff _ _).2 (Or.inr ⟨others, locations, rfl, rfl, List.Forall₂.flip ?_⟩)
    exact Outcome.related_of_mem each fun location member other related =>
      ⟨related.1.symm, Scalar.same_symm _ _ (tidied location member) related.2⟩

theorem fingerprint_of_same {first second : Modulation} (tidied : first.EachWeight (·.tidy))
    (equal : first.same second = true) : first.fingerprint = second.fingerprint := by
  rcases (same_iff _ _).1 equal with ⟨rfl, _⟩ | ⟨locations, others, rfl, rfl, each⟩
  · rfl
  · have words : others.map (fun other => [other.site, other.weight.fingerprint]) =
        locations.map fun location =>
          [location.site, location.weight.fingerprint] := by
      refine Outcome.map_eq_of_related (Outcome.related_of_mem each fun location member other
        related => ?_) fun _ _ same => same
      rw [related.1, Scalar.fingerprint_of_same _ _ (tidied location member) related.2]
    rw [fingerprint, fingerprint, List.flatMap_def, List.flatMap_def, words]

end Modulation

namespace Field

/-- A drive is found under its own modulation, if that comes up only once. -/
theorem find_of_apart {drives : List Drive} (apart : Apart drives) {drive : Drive}
    (member : drive ∈ drives) :
    drives.find? (·.target.same drive.target) = some drive := by
  induction drives with
  | nil => exact absurd member List.not_mem_nil
  | cons head rest ih =>
      rcases List.pairwise_cons.1 apart with ⟨headApart, restApart⟩
      rcases List.mem_cons.1 member with rfl | later
      · rw [List.find?_cons, Modulation.same_refl]
      · rw [List.find?_cons, headApart drive later]
        exact ih restApart later

/-- A drive that is placed leaves an equal of its modulation, and removes no other. -/
theorem place_drive_reach (drive : Drive) (placed : List Drive) :
    (∃ other ∈ placeDrive drive placed, other.target.same drive.target = true) ∧
      ∀ before ∈ placed, ∃ other ∈ placeDrive drive placed, other.target = before.target := by
  induction placed with
  | nil => simp [placeDrive, Modulation.same_refl]
  | cons head rest ih =>
      obtain ⟨reached, kept⟩ := ih
      unfold placeDrive
      split_ifs with equal
      · refine ⟨⟨_, List.mem_cons_self, equal⟩, List.forall_mem_cons.2
          ⟨⟨_, List.mem_cons_self, rfl⟩, ?_⟩⟩
        exact fun before member => ⟨before, by simp [member], rfl⟩
      · refine ⟨?_, List.forall_mem_cons.2 ⟨⟨head, by simp, rfl⟩, fun before member => ?_⟩⟩
        · obtain ⟨other, otherMember, otherEqual⟩ := reached
          exact ⟨other, by simp [otherMember], otherEqual⟩
        · obtain ⟨other, otherMember, sameTarget⟩ := kept before member
          exact ⟨other, by simp [otherMember], sameTarget⟩

/-- The modulations of a field are those of the drives of which it is made, up to equality. -/
theorem of_drives_targets (drives : List Drive) :
    (∀ target ∈ (ofDrives drives).targets, ∃ source ∈ drives, source.target = target) ∧
      ∀ source ∈ drives, ∃ target ∈ (ofDrives drives).targets,
        target.same source.target = true := by
  simp only [targets, List.mem_map, exists_exists_and_eq_and, forall_exists_index, and_imp,
    forall_apply_eq_imp_iff₂]
  induction drives using List.reverseRecOn with
  | nil => simp [ofDrives]
  | append_singleton before last ih =>
      obtain ⟨sources, reached⟩ := ih
      unfold ofDrives at sources reached ⊢
      rw [List.foldl_append]
      obtain ⟨lastReached, kept⟩ := place_drive_reach last
        (before.foldl (fun placed drive => placeDrive drive placed) [])
      refine ⟨fun drive member => ?_, List.forall_mem_append.2
        ⟨fun source member => ?_, List.forall_mem_singleton.2 lastReached⟩⟩
      · rcases place_drive_targets member with new | ⟨earlier, earlierMember, sameTarget⟩
        · exact ⟨last, by simp, new.symm⟩
        · obtain ⟨source, sourceMember, sourceTarget⟩ := sources earlier earlierMember
          exact ⟨source, by simp [sourceMember], sourceTarget.trans sameTarget⟩
      · obtain ⟨earlier, earlierMember, equal⟩ := reached source member
        obtain ⟨drive, driveMember, sameTarget⟩ := kept earlier earlierMember
        exact ⟨drive, driveMember, sameTarget ▸ equal⟩

end Field

namespace Channel

theorem same_iff (first second : Channel) :
    first.same second = true ↔ first.coupling = second.coupling ∧ first.field = second.field ∧
      first.target.same second.target = true := by
  simp [same, and_assoc]

theorem same_refl (channel : Channel) : channel.same channel = true :=
  (same_iff _ _).2 ⟨rfl, rfl, channel.target.same_refl⟩

theorem same_trans {first second third : Channel} (equal : first.same second = true)
    (next : second.same third = true) : first.same third = true := by
  rw [same_iff] at *
  exact ⟨equal.1.trans next.1, equal.2.1.trans next.2.1, Modulation.same_trans equal.2.2 next.2.2⟩

theorem same_symm {first second : Channel} (tidied : first.target.EachWeight (·.tidy))
    (equal : first.same second = true) : second.same first = true := by
  rw [same_iff] at *
  exact ⟨equal.1.symm, equal.2.1.symm, Modulation.same_symm tidied equal.2.2⟩

theorem fingerprint_of_same {first second : Channel} (tidied : first.target.EachWeight (·.tidy))
    (equal : first.same second = true) : first.fingerprint = second.fingerprint := by
  rw [same_iff] at equal
  rw [fingerprint, fingerprint, equal.1, equal.2.1, Modulation.fingerprint_of_same tidied equal.2.2]

end Channel

namespace KeyedMap

variable {κ ν : Type} [Keyed κ]

theorem keys_insert (map : KeyedMap κ ν) (key : κ) (value : ν) :
    (map.insert key value).keys.toList =
      if (map.find? key).isSome then map.keys.toList else map.keys.toList ++ [key] := by
  unfold KeyedMap.insert find?
  dsimp only
  split
  case h_1 found => simp [found]
  case h_2 found => simp [found]

theorem find_in_none {key : κ} {entries : List (κ × ν)} (missing : findIn key entries = none) :
    ∀ entry ∈ entries, Keyed.same key entry.1 = false := by
  induction entries with
  | nil => simp
  | cons entry rest ih =>
      obtain ⟨other, old⟩ := entry
      unfold findIn at missing
      split_ifs at missing with equal
      exact List.forall_mem_cons.2 ⟨Bool.eq_false_iff.2 equal, ih missing⟩

theorem mem_bucket_insert {map : KeyedMap κ ν} {word : UInt64} {entry : κ × ν} (key : κ) (value : ν)
    (member : entry ∈ map.bucket word) :
    ∃ kept, (entry.1, kept) ∈ (map.insert key value).bucket word := by
  have replaced : ∀ entries : List (κ × ν), entry ∈ entries →
      ∃ kept, (entry.1, kept) ∈ replaceIn key value entries := by
    intro entries
    induction entries with
    | nil => simp
    | cons head rest ih =>
        obtain ⟨other, old⟩ := head
        intro inside
        unfold replaceIn
        split_ifs
        · rcases List.mem_cons.1 inside with rfl | later
          · exact ⟨value, by simp⟩
          · exact ⟨entry.2, by simp [later]⟩
        · rcases List.mem_cons.1 inside with rfl | later
          · exact ⟨old, by simp⟩
          · obtain ⟨kept, keptMember⟩ := ih later
            exact ⟨kept, by simp [keptMember]⟩
  unfold KeyedMap.insert
  dsimp only
  split <;> rw [bucket_insert] <;> split_ifs with here
  · exact replaced _ (here ▸ member)
  · exact ⟨entry.2, member⟩
  · exact ⟨entry.2, List.mem_append_left _ (here ▸ member)⟩
  · exact ⟨entry.2, member⟩

/-- A key that is not there yet goes into the bucket of its fingerprint. -/
theorem new_mem_bucket_insert {map : KeyedMap κ ν} {key : κ} (value : ν)
    (missing : map.find? key = none) :
    (key, value) ∈ (map.insert key value).bucket (Keyed.fingerprint key) := by
  unfold find? at missing
  unfold KeyedMap.insert
  dsimp only
  rw [missing]
  dsimp only
  rw [bucket_insert, if_pos rfl]
  simp

theorem contains_insert_self (map : KeyedMap κ ν) {key : κ} (value : ν)
    (itself : Keyed.same key key = true) : (map.insert key value).contains key = true := by
  have stored : ∃ other kept, (other, kept) ∈ (map.insert key value).bucket (Keyed.fingerprint key) ∧
      Keyed.same key other = true := by
    cases found : map.find? key with
    | none => exact ⟨key, value, new_mem_bucket_insert value found, itself⟩
    | some old =>
        obtain ⟨other, member, equal⟩ := find_in_some found
        obtain ⟨kept, keptMember⟩ := mem_bucket_insert key value member
        exact ⟨other, kept, keptMember, equal⟩
  obtain ⟨other, kept, member, equal⟩ := stored
  rw [contains, Option.isSome_iff_ne_none]
  intro missing
  rw [find_in_none missing _ member] at equal
  cases equal

theorem listed_insert {map : KeyedMap κ ν} {listed : κ} (key : κ) (value : ν)
    (member : listed ∈ map.keys.toList) : listed ∈ (map.insert key value).keys.toList := by
  rw [keys_insert]
  split_ifs
  · exact member
  · exact List.mem_append_left _ member

def Placed (map : KeyedMap κ ν) : Prop :=
  ∀ key ∈ map.keys.toList, ∃ value, (key, value) ∈ map.bucket (Keyed.fingerprint key)

theorem Placed.insert {map : KeyedMap κ ν} (placed : map.Placed) (key : κ) (value : ν) :
    (map.insert key value).Placed := by
  intro listed member
  rw [keys_insert] at member
  have kept : ∀ old ∈ map.keys.toList, ∃ found,
      (old, found) ∈ (map.insert key value).bucket (Keyed.fingerprint old) := by
    intro old oldMember
    obtain ⟨found, inside⟩ := placed old oldMember
    exact mem_bucket_insert key value inside
  split_ifs at member with there
  · exact kept listed member
  · rcases List.mem_append.1 member with old | new
    · exact kept listed old
    · rw [List.mem_singleton.1 new]
      exact ⟨value, new_mem_bucket_insert value (by simpa using there)⟩

def Represented (map : KeyedMap κ ν) : Prop :=
  map.Each fun key _ => ∃ listed ∈ map.keys.toList, Keyed.same key listed = true

variable (refl : ∀ key : κ, Keyed.same key key = true)
  (trans : ∀ first second third : κ, Keyed.same first second = true →
    Keyed.same second third = true → Keyed.same first third = true)
include refl trans

theorem Represented.insert {map : KeyedMap κ ν} (represented : map.Represented) (key : κ)
    (value : ν) :
    (map.insert key value).Represented ∧
      ∃ listed ∈ (map.insert key value).keys.toList, Keyed.same key listed = true := by
  have fresh : ∃ listed ∈ (map.insert key value).keys.toList, Keyed.same key listed = true := by
    cases found : map.find? key with
    | none => exact ⟨key, by simp [keys_insert, found], refl key⟩
    | some old =>
        obtain ⟨other, equal, listed, member, next⟩ := represented.find found
        exact ⟨listed, listed_insert key value member, trans key other listed equal next⟩
  have before : map.Each fun other _ =>
      ∃ listed ∈ (map.insert key value).keys.toList, Keyed.same other listed = true := by
    intro word entry member
    obtain ⟨listed, listedMember, equal⟩ := represented word entry member
    exact ⟨listed, listed_insert key value listedMember, equal⟩
  exact ⟨before.insert fresh fun _ _ held _ => held, fresh⟩

end KeyedMap

namespace KeyedSet

variable {κ : Type} [Keyed κ]

theorem insert_all_snoc (before : List κ) (last : κ) :
    KeyedSet.empty.insertAll (before ++ [last]) = (KeyedSet.empty.insertAll before).insert last := by
  unfold insertAll
  rw [List.foldl_append]
  rfl

theorem items_insert (set : KeyedSet κ) (item : κ) :
    (set.insert item).items = if set.contains item then set.items else set.items ++ [item] :=
  KeyedMap.keys_insert set.map item ()

theorem mem_of_listed (items : List κ) {listed : κ}
    (member : listed ∈ (KeyedSet.empty.insertAll items).items) : listed ∈ items := by
  induction items using List.reverseRecOn with
  | nil => simp [insertAll, KeyedSet.empty, KeyedSet.items, KeyedMap.empty] at member
  | append_singleton before last ih =>
      rw [insert_all_snoc, items_insert] at member
      split_ifs at member
      · exact List.mem_append_left _ (ih member)
      · rcases List.mem_append.1 member with old | new
        · exact List.mem_append_left _ (ih old)
        · exact List.mem_append_right _ new

section

variable (refl : ∀ key : κ, Keyed.same key key = true)
  (trans : ∀ first second third : κ, Keyed.same first second = true →
    Keyed.same second third = true → Keyed.same first third = true)
include refl trans

theorem insert_all_represented (items : List κ) :
    (KeyedSet.empty.insertAll items).map.Represented ∧
      ∀ item ∈ items, ∃ listed ∈ (KeyedSet.empty.insertAll items).items,
        Keyed.same item listed = true := by
  induction items using List.reverseRecOn with
  | nil => exact ⟨KeyedMap.each_empty, by simp⟩
  | append_singleton before last ih =>
      obtain ⟨represented, listed⟩ := ih
      rw [insert_all_snoc]
      obtain ⟨stays, fresh⟩ := represented.insert refl trans last ()
      refine ⟨stays, List.forall_mem_append.2
        ⟨fun item member => ?_, List.forall_mem_singleton.2 fresh⟩⟩
      obtain ⟨found, foundMember, equal⟩ := listed item member
      exact ⟨found, KeyedMap.listed_insert last () foundMember, equal⟩

theorem items_of_distinct (items : List κ)
    (distinct : items.Pairwise fun earlier later => Keyed.same later earlier = false) :
    (KeyedSet.empty.insertAll items).items = items := by
  induction items using List.reverseRecOn with
  | nil => rfl
  | append_singleton before last ih =>
      obtain ⟨beforeDistinct, _, lastDistinct⟩ := List.pairwise_append.1 distinct
      have missing : (KeyedSet.empty.insertAll before).contains last = false := by
        rw [Bool.eq_false_iff, contains, KeyedMap.contains, ne_eq, Option.isSome_iff_exists]
        rintro ⟨value, found⟩
        obtain ⟨other, equal, listed, member, next⟩ :=
          (insert_all_represented refl trans before).1.find found
        have different := lastDistinct listed (mem_of_listed before member) last (by simp)
        rw [trans last other listed equal next] at different
        cases different
      rw [insert_all_snoc, items_insert, missing, if_neg Bool.false_ne_true, ih beforeDistinct]

end

/-- Nothing that is listed equals what is listed before it, if equals have equal fingerprints. -/
theorem listed_distinct (items : List κ)
    (consistent : ∀ first ∈ items, ∀ second, Keyed.same first second = true →
      Keyed.fingerprint first = Keyed.fingerprint second) :
    (KeyedSet.empty.insertAll items).items.Pairwise fun earlier later =>
      Keyed.same later earlier = false := by
  have invariant : (KeyedSet.empty.insertAll items).map.Placed ∧
      (KeyedSet.empty.insertAll items).items.Pairwise fun earlier later =>
        Keyed.same later earlier = false := by
    induction items using List.reverseRecOn with
    | nil =>
        constructor
        · intro key member
          simp [insertAll, KeyedSet.empty, KeyedMap.empty] at member
        · simp [insertAll, KeyedSet.empty, items, KeyedMap.empty]
    | append_singleton before last ih =>
        obtain ⟨placed, distinct⟩ := ih fun first member => consistent first (by simp [member])
        rw [insert_all_snoc]
        refine ⟨placed.insert last (), ?_⟩
        rw [items_insert]
        split_ifs with there
        · exact distinct
        · refine List.pairwise_append.2 ⟨distinct, List.pairwise_singleton _ _, ?_⟩
          intro earlier member later isLast
          rw [List.mem_singleton.1 isLast]
          by_contra equal
          rw [Bool.not_eq_false] at equal
          -- An equal would be in the bucket in which the last one was looked for.
          have sameWord := consistent last (by simp) earlier equal
          obtain ⟨value, inside⟩ := placed earlier member
          rw [← sameWord] at inside
          have missing : (KeyedSet.empty.insertAll before).map.find? last = none := by
            simpa [contains, KeyedMap.contains] using there
          rw [KeyedMap.find_in_none missing _ inside] at equal
          cases equal
  exact invariant.2

end KeyedSet

/-- Every use of a channel has an equal among the channels without repetition. -/
theorem Channel.exists_unique_same (channels : List Channel) {channel : Channel}
    (member : channel ∈ channels) : ∃ kept ∈ unique channels, channel.same kept = true :=
  (KeyedSet.insert_all_represented same_refl (fun _ _ _ => same_trans) channels).2 channel member

theorem Channel.mem_of_unique {channels : List Channel} {channel : Channel}
    (member : channel ∈ unique channels) : channel ∈ channels :=
  KeyedSet.mem_of_listed channels member

theorem Channel.unique_of_distinct {channels : List Channel}
    (distinct : channels.Pairwise fun earlier later => later.same earlier = false) :
    unique channels = channels :=
  KeyedSet.items_of_distinct same_refl (fun _ _ _ => same_trans) channels distinct

theorem Channel.unique_distinct {channels : List Channel}
    (tidied : ∀ channel ∈ channels, channel.target.EachWeight (·.tidy)) :
    (unique channels).Pairwise fun earlier later => later.same earlier = false :=
  KeyedSet.listed_distinct channels fun first member _ => fingerprint_of_same (tidied first member)

end Analog
