import Mathlib.Data.List.Basic
import Analog.KeyedMap.Stored

/-!
# Rows in memory

Every row that holds items has a block to itself, which ends where the row does. So an item that is
added in place comes behind the others, and whatever is written through one row leaves all other
rows as they were.
-/

set_option autoImplicit false

namespace Analog.Blocks

variable {α : Type} {blocks : Blocks α} {rows : UInt64 → Row}

/-- How rows, which belong to fingerprints, stand in memory. -/
structure Laid (blocks : Blocks α) (rows : UInt64 → Row) : Prop where
  new : ∀ word, (rows word).length = 0 → (rows word).room = 0
  full : ∀ word, (rows word).length ≠ 0 → ∃ items, blocks[(rows word).block]? = some items ∧
    items.length = (rows word).length
  apart : ∀ first second, first ≠ second → (rows first).length ≠ 0 → (rows second).length ≠ 0 →
    (rows first).block ≠ (rows second).block

theorem laid_empty : Laid ([] : Blocks α) fun _ => {} where
  new _ _ := rfl
  full _ held := absurd rfl held
  apart _ _ _ held := absurd rfl held

theorem items_of_empty {row : Row} (empty : row.length = 0) : blocks.items row = [] := by
  rw [items, empty, List.take_zero]

theorem items_of_full {row : Row} {found : List α} (there : blocks[row.block]? = some found)
    (full : found.length = row.length) : blocks.items row = found := by
  rw [items, there, Option.getD_some, ← full, List.take_length]

theorem Laid.length_items (laid : Laid blocks rows) (word : UInt64) :
    (blocks.items (rows word)).length = (rows word).length := by
  by_cases empty : (rows word).length = 0
  · rw [items_of_empty empty, empty, List.length_nil]
  · obtain ⟨found, there, full⟩ := laid.full word empty
    rw [items_of_full there full, full]

/-- A block that a row has to itself may get new items, if the row gets their number. -/
theorem Laid.change (laid : Laid blocks rows) {word : UInt64} {made : Blocks α} {row : Row}
    {found : List α} (held : row.length ≠ 0) (there : made[row.block]? = some found)
    (full : found.length = row.length)
    (others : ∀ other, other ≠ word → (rows other).length ≠ 0 →
      (rows other).block ≠ row.block ∧ made[(rows other).block]? = blocks[(rows other).block]?) :
    Laid made (fun other => if word = other then row else rows other) ∧
      ∀ other, made.items (if word = other then row else rows other) =
        if word = other then found else blocks.items (rows other) := by
  constructor
  · refine ⟨fun other => ?_, fun other => ?_, fun first second => ?_⟩
    · split_ifs
      · exact fun empty => absurd empty held
      · exact laid.new other
    · split_ifs with here
      · exact fun _ => ⟨found, there, full⟩
      · intro otherHeld
        rw [(others other (Ne.symm here) otherHeld).2]
        exact laid.full other otherHeld
    · split_ifs with firstHere secondHere secondHere
      · exact fun different => absurd (firstHere.symm.trans secondHere) different
      · exact fun _ _ secondHeld => (others second (Ne.symm secondHere) secondHeld).1.symm
      · exact fun _ firstHeld _ => (others first (Ne.symm firstHere) firstHeld).1
      · exact laid.apart first second
  · intro other
    split_ifs with here
    · exact items_of_full there full
    · by_cases empty : (rows other).length = 0
      · rw [items_of_empty empty, items_of_empty empty]
      · rw [items, items, (others other (Ne.symm here) empty).2]

section Write

variable (index : Nat) (item : α) {block : Nat}

theorem write_at {found : List α} (there : blocks[block]? = some found) :
    (blocks.write block index item)[block]? =
      some (found.take index ++ item :: found.drop (index + 1)) := by
  rw [write, List.getElem?_modify, there]
  simp

theorem write_elsewhere {other : Nat} (different : other ≠ block) :
    (blocks.write block index item)[other]? = blocks[other]? := by
  rw [write, List.getElem?_modify]
  simp [Ne.symm different]

end Write

theorem Laid.set (laid : Laid blocks rows) {word : UInt64} {index : Nat}
    (inside : index < (rows word).length) (item : α) :
    ∃ made, blocks.set (rows word) index item = .ok made ∧ Laid made rows ∧
      ∀ other, made.items (rows other) =
        if word = other then (blocks.items (rows word)).set index item
        else blocks.items (rows other) := by
  have held : (rows word).length ≠ 0 := by omega
  obtain ⟨found, there, full⟩ := laid.full word held
  have replaced : (blocks.write (rows word).block index item)[(rows word).block]? =
      some (found.set index item) := by
    rw [write_at index item there, List.set_eq_take_append_cons_drop, if_pos (full ▸ inside)]
  obtain ⟨stays, items⟩ := laid.change held replaced
    (by rw [List.length_set, full]) fun other different otherHeld =>
      have elsewhere := laid.apart other word different otherHeld held
      ⟨elsewhere, write_elsewhere index item elsewhere⟩
  have same : ∀ other, (if word = other then rows word else rows other) = rows other := by
    intro other
    split_ifs with here
    · rw [here]
    · rfl
  simp only [same] at stays items
  exact ⟨_, if_pos inside, stays, items_of_full there full ▸ items⟩

/-- An item that is added comes behind those of its row, and no other row changes. -/
theorem Laid.add (laid : Laid blocks rows) (growth : Nat → Nat) (word : UInt64) (item : α) :
    Laid (blocks.add growth (rows word) item).1
        (fun other => if word = other then (blocks.add growth (rows word) item).2
          else rows other) ∧
      ∀ other, (blocks.add growth (rows word) item).1.items
          (if word = other then (blocks.add growth (rows word) item).2 else rows other) =
        if word = other then blocks.items (rows word) ++ [item] else blocks.items (rows other) := by
  unfold Blocks.add
  split_ifs with room
  · -- There is room, so the row has a block, and ends with it.
    have held : (rows word).length ≠ 0 := by
      intro empty
      rw [laid.new word empty] at room
      omega
    obtain ⟨found, there, full⟩ := laid.full word held
    have written : found.take (rows word).length ++
        item :: found.drop ((rows word).length + 1) = found ++ [item] := by
      rw [← full, List.take_length, List.drop_eq_nil_of_le (Nat.le_succ _)]
    rw [items_of_full there full, ← written]
    refine laid.change (Nat.succ_ne_zero _) (write_at _ item there) ?_
      fun other different otherHeld => ?_
    · rw [written, List.length_append, full, List.length_singleton]
    · have elsewhere := laid.apart other word different otherHeld held
      exact ⟨elsewhere, write_elsewhere _ item elsewhere⟩
  · refine laid.change (Nat.succ_ne_zero _) List.getElem?_concat_length ?_
      fun other _ otherHeld => ?_
    · rw [List.length_append, laid.length_items, List.length_singleton]
    · obtain ⟨found, there, _⟩ := laid.full other otherHeld
      have before : (rows other).block < blocks.length := (List.getElem?_eq_some_iff.1 there).1
      exact ⟨Nat.ne_of_lt before, List.getElem?_append_left before⟩

end Analog.Blocks
