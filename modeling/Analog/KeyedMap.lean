import Std.Data.HashMap

/-!
# Maps under an equality of their own

Keys are told apart by an equality that is coarser than that of their type, and found by
fingerprint. Equal keys must have equal fingerprints; different keys may share one. Keys
are listed in the order in which they were first inserted.
-/

set_option autoImplicit false

namespace Analog

/-- Things that can be looked up. -/
class Keyed (κ : Type) where
  same : κ → κ → Bool
  fingerprint : κ → UInt64

/-- Entries by fingerprint of their keys, and the keys in order of insertion. -/
structure KeyedMap (κ ν : Type) where
  buckets : Std.HashMap UInt64 (List (κ × ν))
  keys : Array κ

namespace KeyedMap

variable {κ ν : Type} [Keyed κ]

def empty : KeyedMap κ ν := ⟨∅, #[]⟩

instance : Inhabited (KeyedMap κ ν) := ⟨empty⟩

def size (map : KeyedMap κ ν) : Nat := map.keys.size

def bucket (map : KeyedMap κ ν) (word : UInt64) : List (κ × ν) :=
  map.buckets.getD word []

def findIn (key : κ) : List (κ × ν) → Option ν
  | [] => none
  | (other, value) :: rest => if Keyed.same key other then some value else findIn key rest

def find? (map : KeyedMap κ ν) (key : κ) : Option ν :=
  findIn key (map.bucket (Keyed.fingerprint key))

def contains (map : KeyedMap κ ν) (key : κ) : Bool :=
  (map.find? key).isSome

def replaceIn (key : κ) (value : ν) : List (κ × ν) → List (κ × ν)
  | [] => []
  | (other, old) :: rest =>
    if Keyed.same key other then (other, value) :: rest
    else (other, old) :: replaceIn key value rest

/-- Inserts an entry. The key that was inserted first stands for all its equals. -/
def insert (map : KeyedMap κ ν) (key : κ) (value : ν) : KeyedMap κ ν :=
  let word := Keyed.fingerprint key
  let entries := map.bucket word
  match findIn key entries with
  | some _ => { map with buckets := map.buckets.insert word (replaceIn key value entries) }
  | none => ⟨map.buckets.insert word (entries ++ [(key, value)]), map.keys.push key⟩

end KeyedMap

/-- A set under an equality of its own, in order of insertion. -/
structure KeyedSet (κ : Type) where
  map : KeyedMap κ Unit

namespace KeyedSet

variable {κ : Type} [Keyed κ]

def empty : KeyedSet κ := ⟨.empty⟩

def size (set : KeyedSet κ) : Nat := set.map.size

def items (set : KeyedSet κ) : List κ := set.map.keys.toList

def contains (set : KeyedSet κ) (item : κ) : Bool := set.map.contains item

def insert (set : KeyedSet κ) (item : κ) : KeyedSet κ := ⟨set.map.insert item ()⟩

def insertAll (set : KeyedSet κ) (items : List κ) : KeyedSet κ :=
  items.foldl insert set

end KeyedSet

end Analog
