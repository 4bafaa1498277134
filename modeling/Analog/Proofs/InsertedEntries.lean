import Analog.Proofs.ChannelEquality
import Analog.Proofs.StoredRows

/-!
# Entries of a keyed map

If keys are told apart by an equivalence and equal keys have equal fingerprints, then a map holds
for every key the value that was inserted last for one of its equals, and lists the first of all
equal keys in order of insertion, whichever keys share a fingerprint. With its rows in memory it
answers the same.
-/

set_option autoImplicit false

namespace Analog

/-- Keys are told apart by an equivalence, and equal ones have one fingerprint. -/
class LawfulKeyed (κ : Type) [Keyed κ] : Prop where
  refl : ∀ key : κ, Keyed.same key key = true
  symm : ∀ {first second : κ}, Keyed.same first second = true → Keyed.same second first = true
  trans : ∀ {first second third : κ}, Keyed.same first second = true →
    Keyed.same second third = true → Keyed.same first third = true
  fingerprint : ∀ {first second : κ}, Keyed.same first second = true →
    Keyed.fingerprint first = Keyed.fingerprint second

section Listing

variable {κ ν : Type} [Keyed κ]

def firstKeys (keys : List κ) : List κ := keys.eraseDupsBy Keyed.same

/-- The value of the last of some entries whose key equals a given one. -/
def lastValue? (key : κ) (entries : List (κ × ν)) : Option ν :=
  (entries.reverse.find? (Keyed.same key ·.1)).map Prod.snd

theorem last_value_snoc (key : κ) (before : List (κ × ν)) (last : κ × ν) :
    lastValue? key (before ++ [last]) =
      if Keyed.same key last.1 then some last.2 else lastValue? key before := by
  unfold lastValue?
  rw [List.reverse_append, List.reverse_singleton, List.singleton_append, List.find?_cons]
  cases Keyed.same key last.1 <;> rfl

theorem last_value_none_iff (key : κ) (entries : List (κ × ν)) :
    lastValue? key entries = none ↔ ∀ entry ∈ entries, Keyed.same key entry.1 = false := by
  simp [lastValue?]

theorem is_some_last_value (key : κ) (entries : List (κ × ν)) :
    (lastValue? key entries).isSome = entries.any (Keyed.same key ·.1) := by
  rw [lastValue?, Option.isSome_map, Bool.eq_iff_iff, List.find?_isSome, List.any_eq_true]
  simp only [List.mem_reverse]

theorem first_keys_snoc (before : List κ) (last : κ) :
    firstKeys (before ++ [last]) =
      if (firstKeys before).any (Keyed.same last ·) then firstKeys before
      else firstKeys before ++ [last] := by
  -- The keys that are kept are collected in reverse.
  have step : ∀ (key : κ) (rest kept : List κ),
      List.eraseDupsBy.loop Keyed.same (key :: rest) kept =
        List.eraseDupsBy.loop Keyed.same rest
          (if kept.any (Keyed.same key) then kept else key :: kept) := by
    intro key rest kept
    rw [List.eraseDupsBy.loop]
    split <;> simp [*]
  have looped : ∀ kept : List κ, List.eraseDupsBy.loop Keyed.same (before ++ [last]) kept =
      if (List.eraseDupsBy.loop Keyed.same before kept).any (Keyed.same last ·) then
        List.eraseDupsBy.loop Keyed.same before kept
      else List.eraseDupsBy.loop Keyed.same before kept ++ [last] := by
    induction before with
    | nil =>
        intro kept
        rw [List.nil_append, step, List.eraseDupsBy.loop, List.eraseDupsBy.loop, List.any_reverse]
        split_ifs
        · rfl
        · exact List.reverse_cons
    | cons key rest ih =>
        intro kept
        rw [List.cons_append, step, step]
        exact ih _
  exact looped []

variable [LawfulKeyed κ]

/-- A key has an equal among the first keys if it has one at all. -/
theorem any_first_keys (key : κ) (keys : List κ) :
    (firstKeys keys).any (Keyed.same key ·) = keys.any (Keyed.same key ·) := by
  induction keys using List.reverseRecOn with
  | nil => rfl
  | append_singleton before last ih =>
      rw [first_keys_snoc, List.any_append, ← ih, List.any_cons, List.any_nil, Bool.or_false]
      split_ifs with there
      · -- What equals the last key equals the one that stands for it.
        obtain ⟨earlier, member, equal⟩ := List.any_eq_true.1 there
        cases own : Keyed.same key last with
        | false => rw [Bool.or_false]
        | true =>
            rw [Bool.or_true]
            exact List.any_eq_true.2 ⟨earlier, member, LawfulKeyed.trans own equal⟩
      · rw [List.any_append, List.any_cons, List.any_nil, Bool.or_false]

end Listing

namespace KeyedMap

variable {κ ν : Type} [Keyed κ]

theorem find_in_snoc (query key : κ) (value : ν) (entries : List (κ × ν)) :
    findIn query (entries ++ [(key, value)]) =
      (findIn query entries).or (if Keyed.same query key then some value else none) := by
  induction entries with
  | nil => rfl
  | cons entry rest ih =>
      rw [List.cons_append, findIn, findIn, ih]
      split_ifs <;> rfl

variable [LawfulKeyed κ]

theorem same_congr {first second : κ} (equal : Keyed.same first second = true) (other : κ) :
    Keyed.same first other = Keyed.same second other := by
  rw [Bool.eq_iff_iff]
  exact ⟨LawfulKeyed.trans (LawfulKeyed.symm equal), LawfulKeyed.trans equal⟩

theorem find_in_congr {first second : κ} (equal : Keyed.same first second = true)
    (entries : List (κ × ν)) : findIn first entries = findIn second entries := by
  induction entries with
  | nil => rfl
  | cons entry rest ih => rw [findIn, findIn, same_congr equal, ih]

theorem find_in_replaced (query key : κ) (value : ν) (entries : List (κ × ν)) :
    findIn query (replaceIn key value entries) =
      if Keyed.same query key then (findIn query entries).map fun _ => value
      else findIn query entries := by
  induction entries with
  | nil => split_ifs <;> rfl
  | cons entry rest ih =>
      obtain ⟨other, old⟩ := entry
      rw [replaceIn, findIn]
      by_cases equal : Keyed.same query key = true
      · rw [if_pos equal, ← same_congr equal other]
        split_ifs with here
        · rw [findIn, if_pos here]
          rfl
        · rw [findIn, if_neg here, ih, if_pos equal]
      · rw [if_neg equal]
        split_ifs with stands here here
        · exact absurd (LawfulKeyed.trans here (LawfulKeyed.symm stands)) equal
        · rw [findIn, if_neg here]
        · rw [findIn, if_pos here]
        · rw [findIn, if_neg here, ih, if_neg equal]

/-- After an insertion its value is found for all equals of its key, and nothing has changed for
any other key, also where the fingerprints are the same. -/
theorem find_insert (map : KeyedMap κ ν) (key query : κ) (value : ν) :
    (map.insert key value).find? query =
      if Keyed.same query key then some value else map.find? query := by
  have inBucket : ∀ entries keys, find? ⟨map.buckets.insert (Keyed.fingerprint key) entries, keys⟩
      query = findIn query (if Keyed.fingerprint key = Keyed.fingerprint query then entries
        else map.bucket (Keyed.fingerprint query)) := fun entries keys => by
    rw [find?, bucket_insert]
  have sameWord : Keyed.same query key = true →
      Keyed.fingerprint key = Keyed.fingerprint query := fun equal =>
    (LawfulKeyed.fingerprint equal).symm
  unfold KeyedMap.insert
  dsimp only
  split
  case h_1 old found =>
    rw [inBucket]
    by_cases word : Keyed.fingerprint key = Keyed.fingerprint query
    · rw [if_pos word, find_in_replaced]
      split_ifs with equal
      · rw [find_in_congr equal, found]
        rfl
      · rw [find?, ← word]
    · rw [if_neg word, if_neg (mt sameWord word)]
      rfl
  case h_2 missing =>
    rw [inBucket]
    by_cases word : Keyed.fingerprint key = Keyed.fingerprint query
    · rw [if_pos word, find_in_snoc, find?, ← word]
      split_ifs with equal
      · rw [find_in_congr equal, missing]
        rfl
      · rw [Option.or_none]
    · rw [if_neg word, if_neg (mt sameWord word)]
      rfl

def insertAll (map : KeyedMap κ ν) (entries : List (κ × ν)) : KeyedMap κ ν :=
  entries.foldl (fun filled entry => filled.insert entry.1 entry.2) map

omit [LawfulKeyed κ] in
theorem insert_all_snoc (map : KeyedMap κ ν) (before : List (κ × ν)) (last : κ × ν) :
    map.insertAll (before ++ [last]) = (map.insertAll before).insert last.1 last.2 := by
  rw [insertAll, List.foldl_append]
  rfl

theorem find_insert_all (entries : List (κ × ν)) (key : κ) :
    (empty.insertAll entries).find? key = lastValue? key entries := by
  induction entries using List.reverseRecOn with
  | nil => simp [insertAll, find?, bucket, empty, findIn, lastValue?]
  | append_singleton before last ih => rw [insert_all_snoc, find_insert, last_value_snoc, ih]

theorem contains_insert_all (entries : List (κ × ν)) (key : κ) :
    (empty.insertAll entries).contains key = entries.any (Keyed.same key ·.1) := by
  rw [contains, find_insert_all, is_some_last_value]

theorem keys_insert_all (entries : List (κ × ν)) :
    (empty.insertAll entries).keys.toList = firstKeys (entries.map Prod.fst) := by
  induction entries using List.reverseRecOn with
  | nil => rfl
  | append_singleton before last ih =>
      have there : ((empty.insertAll before).find? last.1).isSome =
          (firstKeys (before.map Prod.fst)).any (Keyed.same last.1 ·) := by
        rw [any_first_keys, List.any_map]
        exact contains_insert_all before last.1
      rw [insert_all_snoc, keys_insert, ih, there, List.map_append, List.map_singleton,
        first_keys_snoc]

end KeyedMap

namespace StoredMap

open KeyedMap

variable {κ ν : Type} {stored : StoredMap κ ν} {map : KeyedMap κ ν}

/-- The rows in memory hold the entries of a map. -/
structure Stores (stored : StoredMap κ ν) (map : KeyedMap κ ν) : Prop where
  keysLaid : stored.keys.Laid fun word => (stored.bucket word).keys
  valuesLaid : stored.values.Laid fun word => (stored.bucket word).values
  keys : ∀ word, stored.keys.items (stored.bucket word).keys = (map.bucket word).map Prod.fst
  values : ∀ word, stored.values.items (stored.bucket word).values = (map.bucket word).map Prod.snd
  order : stored.order = map.keys

theorem stores_empty : Stores (empty : StoredMap κ ν) KeyedMap.empty where
  keysLaid := by simpa [bucket, empty] using Blocks.laid_empty
  valuesLaid := by simpa [bucket, empty] using Blocks.laid_empty
  keys word := by simp [bucket, empty, KeyedMap.bucket, KeyedMap.empty, Blocks.items]
  values word := by simp [bucket, empty, KeyedMap.bucket, KeyedMap.empty, Blocks.items]
  order := rfl

section Added

variable (word : UInt64) (made : Bucket) (keys : Blocks κ) (values : Blocks ν) (order : Array κ)

theorem key_rows_added :
    (fun other => (bucket ⟨keys, values, stored.buckets.insert word made, order⟩ other).keys) =
      fun other => if word = other then made.keys else (stored.bucket other).keys := by
  funext other
  rw [← apply_ite Bucket.keys]
  simp [bucket, Std.HashMap.getD_insert]

theorem value_rows_added :
    (fun other => (bucket ⟨keys, values, stored.buckets.insert word made, order⟩ other).values) =
      fun other => if word = other then made.values else (stored.bucket other).values := by
  funext other
  rw [← apply_ite Bucket.values]
  simp [bucket, Std.HashMap.getD_insert]

end Added

variable [Keyed κ]

/-- Where a key is found, its value stands at the same place, and is replaced there. -/
theorem find_in_at {key : κ} {entries : List (κ × ν)} {index : Nat}
    (found : (entries.map Prod.fst).findIdx? (Keyed.same key) = some index) :
    ∃ value, (entries.map Prod.snd)[index]? = some value ∧ findIn key entries = some value ∧
      ∀ next, (replaceIn key next entries).map Prod.fst = entries.map Prod.fst ∧
        (replaceIn key next entries).map Prod.snd = (entries.map Prod.snd).set index next := by
  induction entries generalizing index with
  | nil => cases found
  | cons entry rest ih =>
      obtain ⟨other, old⟩ := entry
      rw [List.map_cons, List.findIdx?_cons] at found
      rw [findIn]
      simp only [replaceIn]
      split_ifs at found ⊢ with here
      · rw [← Option.some.inj found]
        exact ⟨old, rfl, rfl, fun _ => ⟨rfl, rfl⟩⟩
      · obtain ⟨later, restFound, rfl⟩ := Option.map_eq_some_iff.1 found
        obtain ⟨value, valueAt, valueFound, replaced⟩ := ih restFound
        refine ⟨value, valueAt, valueFound, fun next => ?_⟩
        obtain ⟨keysKept, valueSet⟩ := replaced next
        exact ⟨congrArg (other :: ·) keysKept, congrArg (old :: ·) valueSet⟩

theorem find_in_nowhere {key : κ} {entries : List (κ × ν)}
    (missing : (entries.map Prod.fst).findIdx? (Keyed.same key) = none) :
    findIn key entries = none := by
  induction entries with
  | nil => rfl
  | cons entry rest ih =>
      rw [List.map_cons, List.findIdx?_cons] at missing
      rw [findIn]
      split_ifs at missing ⊢ with here
      exact ih (Option.map_eq_none_iff.1 missing)

theorem Stores.index (stores : Stores stored map) (key : κ) :
    stored.index? (stored.bucket (Keyed.fingerprint key)) key =
      ((map.bucket (Keyed.fingerprint key)).map Prod.fst).findIdx? (Keyed.same key) := by
  rw [index?, stores.keys]

theorem Stores.contains (stores : Stores stored map) (key : κ) :
    stored.contains key = map.contains key := by
  rw [StoredMap.contains, stores.index, KeyedMap.contains, KeyedMap.find?]
  cases found : ((map.bucket (Keyed.fingerprint key)).map Prod.fst).findIdx? (Keyed.same key) with
  | none => rw [find_in_nowhere found, Option.isSome_none, Option.isSome_none]
  | some index =>
      obtain ⟨value, _, valueFound, _⟩ := find_in_at found
      rw [valueFound, Option.isSome_some, Option.isSome_some]

theorem Stores.find (stores : Stores stored map) (key : κ) :
    stored.find? key = .ok (map.find? key) := by
  rw [StoredMap.find?, stores.index, KeyedMap.find?]
  cases found : ((map.bucket (Keyed.fingerprint key)).map Prod.fst).findIdx? (Keyed.same key) with
  | none => rw [find_in_nowhere found]
  | some index =>
      obtain ⟨value, valueAt, valueFound, _⟩ := find_in_at found
      dsimp only
      rw [valueFound, Blocks.get, stores.values, valueAt]
      rfl

/-- An insertion in memory says whether the key was there, and comes to the same map. -/
theorem Stores.insert (stores : Stores stored map) (growth : Growth) (key : κ) (value : ν) :
    ∃ next, stored.insert growth key value = .ok (map.contains key, next) ∧
      Stores next (map.insert key value) := by
  have found := stores.contains key
  rw [StoredMap.contains, stores.index] at found
  rw [← found, StoredMap.insert, KeyedMap.insert, stores.index]
  dsimp only
  cases place : ((map.bucket (Keyed.fingerprint key)).map Prod.fst).findIdx?
      (Keyed.same key) with
  | none =>
      have keysAdded := stores.keysLaid.add growth.keys (Keyed.fingerprint key) key
      have valuesAdded := stores.valuesLaid.add growth.values (Keyed.fingerprint key) value
      rw [find_in_nowhere place]
      refine ⟨_, rfl, ?_, ?_, fun word => ?_, fun word => ?_, ?_⟩
      · rw [key_rows_added]
        exact keysAdded.1
      · rw [value_rows_added]
        exact valuesAdded.1
      · refine (congrArg _ (congrFun (key_rows_added ..) word)).trans ?_
        refine (keysAdded.2 word).trans ?_
        rw [bucket_insert, stores.keys, stores.keys]
        split_ifs <;> simp
      · refine (congrArg _ (congrFun (value_rows_added ..) word)).trans ?_
        refine (valuesAdded.2 word).trans ?_
        rw [bucket_insert, stores.values, stores.values]
        split_ifs <;> simp
      · rw [stores.order]
  | some index =>
      obtain ⟨old, valueAt, valueFound, replaced⟩ := find_in_at place
      have inside : index < (stored.bucket (Keyed.fingerprint key)).values.length := by
        rw [← stores.valuesLaid.length_items, stores.values]
        exact (List.getElem?_eq_some_iff.1 valueAt).1
      obtain ⟨made, setOk, laid, items⟩ := stores.valuesLaid.set inside value
      rw [valueFound]
      dsimp only
      rw [setOk]
      refine ⟨_, rfl, stores.keysLaid, laid, fun word => ?_, fun word => ?_, stores.order⟩
      · rw [bucket_insert]
        refine (stores.keys word).trans ?_
        split_ifs with here
        · rw [(replaced value).1, here]
        · rfl
      · rw [bucket_insert]
        refine (items word).trans ?_
        split_ifs with here
        · rw [(replaced value).2, stores.values]
        · exact stores.values word

/-- Inserts entries one after the other, and says of each whether its key was there. -/
def insertAll (growth : Growth) (stored : StoredMap κ ν) :
    List (κ × ν) → Outcome (List Bool × StoredMap κ ν)
  | [] => .ok ([], stored)
  | entry :: rest => do
    let (found, next) ← stored.insert growth entry.1 entry.2
    let (others, last) ← insertAll growth next rest
    return (found :: others, last)

theorem Stores.insert_all (stores : Stores stored map) (growth : Growth)
    (entries : List (κ × ν)) :
    ∃ founds last, stored.insertAll growth entries = .ok (founds, last) ∧
      Stores last (map.insertAll entries) ∧ founds.length = entries.length ∧
      ∀ before entry after, entries = before ++ entry :: after →
        founds[before.length]? = some ((map.insertAll before).contains entry.1) := by
  induction entries generalizing stored map with
  | nil => exact ⟨[], stored, rfl, stores, rfl, fun before entry after empty => by simp at empty⟩
  | cons entry rest ih =>
      obtain ⟨next, inserted, nextStores⟩ := stores.insert growth entry.1 entry.2
      obtain ⟨founds, last, others, lastStores, sameLength, each⟩ := ih nextStores
      refine ⟨map.contains entry.1 :: founds, last, ?_, lastStores, congrArg (· + 1) sameLength, ?_⟩
      · rw [insertAll, inserted]
        change (next.insertAll growth rest >>= _) = _
        rw [others]
        rfl
      · intro before other after split
        cases before with
        | nil =>
            rw [(List.cons.inj split).1]
            rfl
        | cons first earlier =>
            obtain ⟨rfl, restSplit⟩ := List.cons.inj split
            exact each earlier other after restSplit

end StoredMap

namespace StoredSet

variable {κ : Type} [Keyed κ]

/-- Inserts items one after the other, and says of each whether it was there. -/
def insertAll (growth : Growth) (set : StoredSet κ) :
    List κ → Outcome (List Bool × StoredSet κ)
  | [] => .ok ([], set)
  | item :: rest => do
    let (found, next) ← set.insert growth item
    let (others, last) ← insertAll growth next rest
    return (found :: others, last)

theorem insert_all_eq_map (growth : Growth) (set : StoredSet κ) (items : List κ) :
    set.insertAll growth items =
      (fun made => (made.1, ⟨made.2⟩)) <$> set.map.insertAll growth (items.map (·, ())) := by
  induction items generalizing set with
  | nil => rfl
  | cons item rest ih =>
      rw [insertAll, insert, List.map_cons, StoredMap.insertAll]
      cases set.map.insert growth item () with
      | error failure => rfl
      | ok made =>
          obtain ⟨found, next⟩ := made
          change (insertAll growth ⟨next⟩ rest >>= _) = _ <$> (next.insertAll growth _ >>= _)
          rw [ih]
          cases next.insertAll growth (rest.map (·, ())) <;> rfl

end StoredSet

section Insertions

variable {κ ν : Type} [Keyed κ]

/-- Of each key it is said whether an equal key stands before it. -/
structure Told (keys : List κ) (founds : List Bool) : Prop where
  length : founds.length = keys.length
  each : ∀ before key after, keys = before ++ key :: after →
    founds[before.length]? = some (before.any (Keyed.same key ·))

/-- What is found among entries, and which keys are listed. -/
structure Remembers (entries : List (κ × ν)) (find? : κ → Option ν) (contains : κ → Bool)
    (keys : List κ) (size : Nat) : Prop where
  last : ∀ key, find? key = lastValue? key entries
  missing : ∀ key, find? key = none ↔ ∀ entry ∈ entries, Keyed.same key entry.1 = false
  contains : ∀ key, contains key = (find? key).isSome
  listed : keys = firstKeys (entries.map Prod.fst)
  counted : size = keys.length

/-- Which items are members, and how they are listed. -/
structure Collects (items : List κ) (contains : κ → Bool) (members : List κ) (size : Nat) :
    Prop where
  contains : ∀ item, contains item = items.any (Keyed.same item ·)
  listed : members = firstKeys items
  counted : size = members.length

omit [Keyed κ] in
theorem map_fst_paired (items : List κ) : (items.map (·, ())).map Prod.fst = items := by
  rw [List.map_map]
  exact List.map_id items

theorem Remembers.collects {items : List κ} {find? : κ → Option Unit} {contains : κ → Bool}
    {members : List κ} {size : Nat}
    (remembers : Remembers (items.map (·, ())) find? contains members size) :
    Collects items contains members size where
  contains item := by
    rw [remembers.contains, remembers.last, is_some_last_value, List.any_map]
    rfl
  listed := by rw [remembers.listed, map_fst_paired]
  counted := remembers.counted

variable [LawfulKeyed κ]

theorem KeyedMap.insert_all_remembers (entries : List (κ × ν)) :
    Remembers entries (empty.insertAll entries).find? (empty.insertAll entries).contains
      (empty.insertAll entries).keys.toList (empty.insertAll entries).size where
  last := find_insert_all entries
  missing key := by rw [find_insert_all, last_value_none_iff]
  contains _ := rfl
  listed := keys_insert_all entries
  counted := Array.length_toList.symm

omit [LawfulKeyed κ] in
theorem KeyedSet.map_insert_all (items : List κ) :
    (KeyedSet.empty.insertAll items).map = KeyedMap.empty.insertAll (items.map (·, ())) := by
  rw [KeyedMap.insertAll, List.foldl_map, insertAll]
  exact (List.foldl_hom KeyedSet.map fun _ _ => rfl).symm

/-- In memory all insertions succeed, and the map answers as it does without its rows. -/
theorem StoredMap.insert_all_remembers (growth : Growth) (entries : List (κ × ν)) :
    ∃ founds stored, empty.insertAll growth entries = .ok (founds, stored) ∧
      Told (entries.map Prod.fst) founds ∧
      (∀ key, stored.find? key = .ok ((KeyedMap.empty.insertAll entries).find? key)) ∧
      Remembers entries (KeyedMap.empty.insertAll entries).find? stored.contains
        stored.order.toList stored.size := by
  obtain ⟨founds, stored, inserted, stores, sameLength, each⟩ :=
    stores_empty.insert_all growth entries
  have remembers := KeyedMap.insert_all_remembers entries
  refine ⟨founds, stored, inserted, ⟨?_, ?_⟩, stores.find, ?_⟩
  · rw [sameLength, List.length_map]
  · intro before key after split
    obtain ⟨earlier, others, rfl, rfl, later⟩ := List.map_eq_append_iff.1 split
    obtain ⟨entry, rest, rfl, rfl, rfl⟩ := List.map_eq_cons_iff.1 later
    rw [List.length_map, each earlier entry rest rfl, KeyedMap.contains_insert_all, List.any_map]
    rfl
  · refine { remembers with contains := fun key => ?_, listed := ?_, counted := ?_ }
    · rw [stores.contains]
      rfl
    · rw [stores.order]
      exact remembers.listed
    · exact Array.length_toList.symm

/-- However many keys share a fingerprint, entries that are inserted into an empty map succeed, each
with the word whether an equal key was inserted before. Then the value of the last entry with an
equal key is found, or none if there is no such entry, and the first of all equal keys are listed in
order of insertion, in memory as well as without it. A set says the same of its items, has them as
its members and lists the first of all equal ones. -/
theorem insertions_remembered (growth : Growth) (entries : List (κ × ν)) (items : List κ) :
    (∃ founds stored, StoredMap.empty.insertAll growth entries = .ok (founds, stored) ∧
      Told (entries.map Prod.fst) founds ∧
      (∀ key, stored.find? key = .ok ((KeyedMap.empty.insertAll entries).find? key)) ∧
      Remembers entries (KeyedMap.empty.insertAll entries).find? stored.contains
        stored.order.toList stored.size) ∧
      Remembers entries (KeyedMap.empty.insertAll entries).find?
        (KeyedMap.empty.insertAll entries).contains
        (KeyedMap.empty.insertAll entries).keys.toList (KeyedMap.empty.insertAll entries).size ∧
      (∃ founds stored, StoredSet.empty.insertAll growth items = .ok (founds, stored) ∧
        Told items founds ∧ Collects items stored.contains stored.items stored.size) ∧
      Collects items (KeyedSet.empty.insertAll items).contains
        (KeyedSet.empty.insertAll items).items (KeyedSet.empty.insertAll items).size := by
  refine ⟨StoredMap.insert_all_remembers growth entries, KeyedMap.insert_all_remembers entries,
    ?_, ?_⟩
  · obtain ⟨founds, stored, inserted, told, _, remembers⟩ :=
      StoredMap.insert_all_remembers growth (items.map (·, ()))
    rw [map_fst_paired] at told
    refine ⟨founds, ⟨stored⟩, ?_, told, remembers.collects⟩
    rw [StoredSet.insert_all_eq_map, StoredSet.empty, inserted]
    rfl
  · have collects := (KeyedMap.insert_all_remembers (items.map (·, ()))).collects
    rw [← KeyedSet.map_insert_all] at collects
    exact collects

end Insertions

/-- Names that have one fingerprint if they differ in the first letter only. -/
structure Rhyme where
  letters : List Char
  deriving DecidableEq

instance : Keyed Rhyme where
  same first second := first == second
  fingerprint key := Fingerprint.ofText (String.ofList key.letters.tail)

instance : LawfulKeyed Rhyme where
  refl _ := beq_self_eq_true _
  symm equal := beq_iff_eq.2 (beq_iff_eq.1 equal).symm
  trans equal next := beq_iff_eq.2 ((beq_iff_eq.1 equal).trans (beq_iff_eq.1 next))
  fingerprint equal := by rw [beq_iff_eq.1 equal]

/-- The second name goes into the bucket of the first, whose value is then replaced. -/
theorem rhymes_remembered :
    Keyed.fingerprint (Rhyme.mk ['x', 'a']) = Keyed.fingerprint (Rhyme.mk ['y', 'a']) ∧
      ∃ founds stored, StoredMap.empty.insertAll ⟨(2 * ·), (2 * ·)⟩
          [(Rhyme.mk ['x', 'a'], 1), (⟨['y', 'a']⟩, 2), (⟨['x', 'a']⟩, 3)] = .ok (founds, stored) ∧
        founds.length = 3 ∧ founds[1]? = some false ∧ founds[2]? = some true ∧
        stored.find? ⟨['x', 'a']⟩ = .ok (some 3) ∧ stored.find? ⟨['y', 'a']⟩ = .ok (some 2) ∧
        stored.find? ⟨['z', 'a']⟩ = .ok none ∧
        stored.order.toList = [⟨['x', 'a']⟩, ⟨['y', 'a']⟩] := by
  obtain ⟨⟨founds, stored, inserted, told, find, remembers⟩, _⟩ :=
    insertions_remembered ⟨(2 * ·), (2 * ·)⟩
      [(Rhyme.mk ['x', 'a'], 1), (⟨['y', 'a']⟩, 2), (⟨['x', 'a']⟩, 3)] []
  refine ⟨rfl, founds, stored, inserted, told.length, ?_, ?_, ?_, ?_, ?_,
    remembers.listed.trans rfl⟩
  · exact told.each [⟨['x', 'a']⟩] ⟨['y', 'a']⟩ [⟨['x', 'a']⟩] rfl
  · exact told.each [⟨['x', 'a']⟩, ⟨['y', 'a']⟩] ⟨['x', 'a']⟩ [] rfl
  · exact (find _).trans (congrArg Except.ok ((remembers.last _).trans rfl))
  · exact (find _).trans (congrArg Except.ok ((remembers.last _).trans rfl))
  · exact (find _).trans (congrArg Except.ok ((remembers.last _).trans rfl))

end Analog
