import Analog.Failure
import Analog.KeyedMap

/-!
# Keyed maps in memory

Keys that share a fingerprint stand in a row in memory, and their values in a row beside it. A row
has room for some items more than it holds; a new item is put down in place while there is room, and
otherwise the row moves. A bucket only says where its two rows are: a value that is replaced through
a copy of the bucket is replaced for the map.
-/

set_option autoImplicit false

namespace Analog

/-- Blocks of memory, in order of their creation, each with the items written to it. -/
abbrev Blocks (α : Type) := List (List α)

/-- Where a row stands, how many items it holds, and for how many there is room. A new row has no
block yet. -/
structure Row where
  block : Nat := 0
  length : Nat := 0
  room : Nat := 0

namespace Blocks

variable {α : Type}

def items (blocks : Blocks α) (row : Row) : List α :=
  (blocks[row.block]?.getD []).take row.length

def write (blocks : Blocks α) (block index : Nat) (item : α) : Blocks α :=
  blocks.modify block fun items => items.take index ++ item :: items.drop (index + 1)

def get (blocks : Blocks α) (row : Row) (index : Nat) : Outcome α :=
  match (blocks.items row)[index]? with
  | some item => .ok item
  | none => .error (.abort .missing)

def set (blocks : Blocks α) (row : Row) (index : Nat) (item : α) : Outcome (Blocks α) :=
  if index < row.length then .ok (blocks.write row.block index item)
  else .error (.abort .missing)

/-- Adds an item to a row. A row without room for it is copied to a new block, which is as large as
the rule of growth says. -/
def add (growth : Nat → Nat) (blocks : Blocks α) (row : Row) (item : α) : Blocks α × Row :=
  if row.length < row.room then
    (blocks.write row.block row.length item, { row with length := row.length + 1 })
  else
    (blocks ++ [blocks.items row ++ [item]],
      ⟨blocks.length, row.length + 1, max (row.length + 1) (growth row.length)⟩)

end Blocks

/-- For how many items there is room when a full row of keys or of values moves. -/
structure Growth where
  keys : Nat → Nat
  values : Nat → Nat

/-- The rows of the keys and of the values that share a fingerprint. -/
structure Bucket where
  keys : Row := {}
  values : Row := {}

/-- A map whose rows stand in memory. -/
structure StoredMap (κ ν : Type) where
  keys : Blocks κ
  values : Blocks ν
  buckets : Std.HashMap UInt64 Bucket
  order : Array κ

namespace StoredMap

variable {κ ν : Type} [Keyed κ]

def empty : StoredMap κ ν := ⟨[], [], ∅, #[]⟩

def size (map : StoredMap κ ν) : Nat := map.order.size

def bucket (map : StoredMap κ ν) (word : UInt64) : Bucket :=
  map.buckets.getD word {}

def index? (map : StoredMap κ ν) (bucket : Bucket) (key : κ) : Option Nat :=
  (map.keys.items bucket.keys).findIdx? (Keyed.same key)

def contains (map : StoredMap κ ν) (key : κ) : Bool :=
  (map.index? (map.bucket (Keyed.fingerprint key)) key).isSome

def find? (map : StoredMap κ ν) (key : κ) : Outcome (Option ν) :=
  let bucket := map.bucket (Keyed.fingerprint key)
  match map.index? bucket key with
  | some index => some <$> map.values.get bucket.values index
  | none => .ok none

/-- Inserts an entry, and says whether there was one for the key. If so, its value is replaced where
it stands. -/
def insert (growth : Growth) (map : StoredMap κ ν) (key : κ) (value : ν) :
    Outcome (Bool × StoredMap κ ν) :=
  let word := Keyed.fingerprint key
  let bucket := map.bucket word
  match map.index? bucket key with
  | some index => do
    let values ← map.values.set bucket.values index value
    return (true, { map with values })
  | none =>
    let (keys, keyRow) := map.keys.add growth.keys bucket.keys key
    let (values, valueRow) := map.values.add growth.values bucket.values value
    .ok (false, ⟨keys, values, map.buckets.insert word ⟨keyRow, valueRow⟩, map.order.push key⟩)

end StoredMap

/-- A set whose items are the keys of a map in memory. -/
structure StoredSet (κ : Type) where
  map : StoredMap κ Unit

namespace StoredSet

variable {κ : Type} [Keyed κ]

def empty : StoredSet κ := ⟨.empty⟩

def size (set : StoredSet κ) : Nat := set.map.size

def items (set : StoredSet κ) : List κ := set.map.order.toList

def contains (set : StoredSet κ) (item : κ) : Bool := set.map.contains item

def insert (growth : Growth) (set : StoredSet κ) (item : κ) : Outcome (Bool × StoredSet κ) := do
  let (found, map) ← set.map.insert growth item ()
  return (found, ⟨map⟩)

end StoredSet

end Analog
