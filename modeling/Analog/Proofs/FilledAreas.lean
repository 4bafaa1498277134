import Analog.Proofs.RoundedQuotients
import Analog.Proofs.SampledWaveforms
import Analog.Proofs.ScalarEquality
import Analog.Register.Tiling

/-!
# Filled areas

The copies of a register that fill an area keep their distance from one another, and none of
them reaches below zero. How many there are is found by a quotient, and a quotient is rounded.
So the copies stay within the area and leave no room for another column or row exactly if
rounding does not reach the next whole number of steps, and if the count fits in a word.
-/

set_option autoImplicit false

namespace Analog

/-- The directions of the plane. -/
inductive Axis where
  | x
  | y

def Axis.pick {α : Type} (ofX ofY : α) : Axis → α
  | .x => ofX
  | .y => ofY

theorem Axis.pick_le {column row columns rows : Nat} (axis : Axis) (columnInside : column ≤ columns)
    (rowInside : row ≤ rows) : axis.pick column row ≤ axis.pick columns rows := by
  cases axis
  · exact columnInside
  · exact rowInside

def Position.along (axis : Axis) (position : Position) : Decimal :=
  axis.pick position.x position.y

theorem Position.shift_along (axis : Axis) (position offset : Position) :
    (position.shift offset).along axis = position.along axis + offset.along axis := by
  cases axis <;> rfl

namespace Register

def shift (register : Register) (offset : Position) : Register :=
  ⟨register.sites.map fun site => { site with position := site.position.shift offset }⟩

def lowest (axis : Axis) (register : Register) : Decimal := register.bounds.1.along axis

def highest (axis : Axis) (register : Register) : Decimal := register.bounds.2.along axis

/-- A corner that is moved from site to site has the extreme coordinate of all of them. -/
theorem corner_along {choose : Decimal → Decimal → Decimal} {before : Decimal → Decimal → Prop}
    (choice : Scalar.Choice choose before) (move : Position → Position → Position) (axis : Axis)
    (moves : ∀ corner position, (move corner position).along axis =
      choose (corner.along axis) (position.along axis)) (first : Site) (rest : List Site) :
    let corner := rest.foldl (fun corner site => move corner site.position) first.position
    (∃ site ∈ first :: rest, site.position.along axis = corner.along axis) ∧
      ∀ site ∈ first :: rest, before (corner.along axis) (site.position.along axis) := by
  have projected : ∀ start : Position,
      (rest.foldl (fun corner site => move corner site.position) start).along axis =
        (rest.map fun site => site.position.along axis).foldl choose (start.along axis) := by
    induction rest with
    | nil => exact fun start => rfl
    | cons site others ih =>
        intro start
        rw [List.foldl_cons, ih, moves, List.map_cons, List.foldl_cons]
  dsimp only
  rw [projected]
  have extreme := Scalar.fold_chosen choice (first.position.along axis)
    (rest.map fun site => site.position.along axis)
  rw [← List.map_cons (f := fun site : Site => site.position.along axis)] at extreme
  exact ⟨List.mem_map.1 extreme.1, fun site member => extreme.2 _ (List.mem_map_of_mem member)⟩

def coordinates (axis : Axis) (sites : List Site) : Set Decimal :=
  {coordinate | ∃ site ∈ sites, site.position.along axis = coordinate}

variable {register : Register} (axis : Axis)

theorem lowest_least (nonempty : register.sites ≠ []) :
    IsLeast (coordinates axis register.sites) (register.lowest axis) := by
  obtain ⟨sites⟩ := register
  cases sites with
  | nil => exact absurd rfl nonempty
  | cons first rest =>
      have corner := corner_along Scalar.choice_min Position.lower axis
        (by intro _ _; cases axis <;> rfl) first rest
      exact ⟨corner.1, by rintro _ ⟨site, member, rfl⟩; exact corner.2 site member⟩

theorem highest_greatest (nonempty : register.sites ≠ []) :
    IsGreatest (coordinates axis register.sites) (register.highest axis) := by
  obtain ⟨sites⟩ := register
  cases sites with
  | nil => exact absurd rfl nonempty
  | cons first rest =>
      have corner := corner_along Scalar.choice_max Position.upper axis
        (by intro _ _; cases axis <;> rfl) first rest
      exact ⟨corner.1, by rintro _ ⟨site, member, rfl⟩; exact corner.2 site member⟩

theorem extent_along :
    register.extent.along axis = register.highest axis - register.lowest axis := by
  cases axis <;> rfl

theorem extent_nonneg (nonempty : register.sites ≠ []) : 0 ≤ register.extent.along axis := by
  rw [extent_along, sub_nonneg]
  exact (highest_greatest axis nonempty).2 (lowest_least axis nonempty).1

theorem coordinates_shift (offset : Position) :
    coordinates axis (register.shift offset).sites =
      (· + offset.along axis) '' coordinates axis register.sites := by
  ext coordinate
  simp only [coordinates, shift, List.mem_map, Set.mem_ofPred_eq, Set.mem_image]
  constructor
  · rintro ⟨_, ⟨site, member, rfl⟩, rfl⟩
    exact ⟨_, ⟨site, member, rfl⟩, (Position.shift_along axis _ _).symm⟩
  · rintro ⟨_, ⟨site, member, rfl⟩, rfl⟩
    exact ⟨_, ⟨site, member, rfl⟩, Position.shift_along axis _ _⟩

theorem shift_nonempty (nonempty : register.sites ≠ []) (offset : Position) :
    (register.shift offset).sites ≠ [] := by
  simpa [shift] using nonempty

theorem lowest_shift (nonempty : register.sites ≠ []) (offset : Position) :
    (register.shift offset).lowest axis = register.lowest axis + offset.along axis := by
  have own := lowest_least axis (shift_nonempty nonempty offset)
  rw [coordinates_shift] at own
  have monotone : Monotone (· + offset.along axis) := fun _ _ below => add_le_add_left below _
  exact own.unique (monotone.map_isLeast (lowest_least axis nonempty))

theorem highest_shift (nonempty : register.sites ≠ []) (offset : Position) :
    (register.shift offset).highest axis = register.highest axis + offset.along axis := by
  have own := highest_greatest axis (shift_nonempty nonempty offset)
  rw [coordinates_shift] at own
  have monotone : Monotone (· + offset.along axis) := fun _ _ below => add_le_add_left below _
  exact own.unique (monotone.map_isGreatest (highest_greatest axis nonempty))

/-- The boxes around two registers have a gap between them, along some axis. -/
def Separated (gap : Decimal) (first second : Register) : Prop :=
  ∃ axis, first.highest axis + gap ≤ second.lowest axis ∨
    second.highest axis + gap ≤ first.lowest axis

end Register

theorem Decimal.le_floor_iff (bound : Int) (value : Decimal) :
    bound ≤ value.floor ↔ ofInt bound ≤ value := by
  have power : (0 : Int) < tenTo value.scale := by exact_mod_cast ten_to_pos _
  rw [floor, Int.le_ediv_iff_mul_le power, le_iff_to_rat, to_rat_of_int, ← Int.cast_le (R := ℚ),
    coeff_value]
  push_cast
  rw [ten_to_cast]
  exact mul_le_mul_iff_left₀ (by positivity)

theorem Decimal.of_int_succ (value : Int) : ofInt (value + 1) = ofInt value + 1 := by
  apply to_rat_injective
  rw [to_rat_add, to_rat_of_int, to_rat_of_int, to_rat_one]
  push_cast
  rfl

namespace Tiling

/-- The length of a row of copies: the first and as many others as are given. -/
def rowLength (extent spacing : Decimal) (others : Nat) : Decimal :=
  extent + (extent + spacing) * Decimal.ofInt others

/-- Counting by a rounded quotient finds the longest row that fits in a length: the number of its
copies is a word, and a longer row does not fit even if half of the last place of the quotient is
added to the steps. -/
def CountsWhole (extent spacing length : Decimal) : Prop :=
  ∃ others, others + 1 < 2 ^ 64 ∧ rowLength extent spacing others ≤ length ∧
    length + Decimal.halfPlace * (extent + spacing) < rowLength extent spacing (others + 1)

theorem next_word (count : Nat) : (UInt64.ofNat count + 1).toNat = (count + 1) % 2 ^ 64 := by
  simp

section Counting

variable {extent spacing length : Decimal} {others : Nat}

theorem row_length_le_iff (bound : Decimal) :
    rowLength extent spacing others ≤ bound ↔
      Decimal.ofInt others * (extent + spacing) ≤ bound - extent := by
  rw [rowLength, mul_comm, le_sub_iff_add_le']

theorem row_length_mono (positive : 0 < extent + spacing) {fewer more : Nat}
    (ordered : fewer ≤ more) :
    rowLength extent spacing fewer ≤ rowLength extent spacing more := by
  have numbers : Decimal.ofInt fewer ≤ Decimal.ofInt more := by
    rw [Decimal.le_iff_to_rat, Decimal.to_rat_of_int, Decimal.to_rat_of_int]
    exact_mod_cast ordered
  exact add_le_add_right (mul_le_mul_of_nonneg_left numbers positive.le) extent

/-- The row that is counted is the longest one that fits, or the next one if rounding reaches it. -/
theorem copies_eq (positive : 0 < extent + spacing)
    (fits : rowLength extent spacing others ≤ length)
    (misses : length < rowLength extent spacing (others + 1)) :
    copies extent spacing length = .ok
      (((if rowLength extent spacing (others + 1) ≤ length + Decimal.halfPlace * (extent + spacing)
        then others + 1 else others) + 1) % 2 ^ 64) := by
  simp only [← not_le, row_length_le_iff] at fits misses ⊢
  rw [not_le] at misses
  rw [← sub_add_eq_add_sub]
  have nonneg : 0 ≤ length - extent := (Signal.multiple_nonneg positive others).trans fits
  obtain ⟨quotient, divides⟩ := Decimal.div_of_ne_zero (length - extent) _ positive.ne'
  have counted : quotient.floor.toNat =
      if Decimal.ofInt (others + 1 : Nat) * (extent + spacing) ≤
          length - extent + Decimal.halfPlace * (extent + spacing)
        then others + 1 else others := by
    have low := (Decimal.le_floor_iff others quotient).2
      (Decimal.le_div positive (Nat.zero_le _) fits divides)
    have high : quotient.floor ≤ (others + 1 : Nat) := by
      by_contra above
      have beyond := (Decimal.le_floor_iff (others + 2 : Nat) quotient).1 (by push_cast at *; omega)
      have bounded := Decimal.div_le positive (Nat.zero_le _) misses.le divides
      have larger : Decimal.ofInt (others + 1 : Nat) < Decimal.ofInt (others + 2 : Nat) := by
        rw [Decimal.lt_iff_to_rat, Decimal.to_rat_of_int, Decimal.to_rat_of_int]
        exact_mod_cast Nat.lt_succ_self _
      exact absurd (larger.trans_le (beyond.trans bounded)) (lt_irrefl _)
    have next : Decimal.ofInt (others + 1 : Nat) ≤ quotient ↔ _ :=
      Decimal.le_div_iff nonneg positive (Nat.zero_le _) divides
    rw [← Decimal.le_floor_iff] at next
    split_ifs with rounded
    · have reached := next.2 rounded
      omega
    · have missed := mt next.1 rounded
      omega
  rw [copies, if_neg (not_lt.2 (sub_nonneg.1 nonneg)),
    (Decimal.quotient_ok_iff _ _ _).2 divides, Outcome.ok_bind, next_word, counted]
  rfl

/-- As many copies as are counted fit in a length, and one more does not, exactly if the count
finds the longest row. -/
theorem counts_whole_iff (positive : 0 < extent + spacing)
    (counted : copies extent spacing length = .ok (others + 1)) :
    rowLength extent spacing others ≤ length ∧ length < rowLength extent spacing (others + 1) ↔
      CountsWhole extent spacing length := by
  have counts : ∀ longest, rowLength extent spacing longest ≤ length →
      length < rowLength extent spacing (longest + 1) →
      others + 1 = ((if rowLength extent spacing (longest + 1) ≤
          length + Decimal.halfPlace * (extent + spacing)
        then longest + 1 else longest) + 1) % 2 ^ 64 := by
    intro longest fits misses
    exact Except.ok.inj (counted.symm.trans (copies_eq positive fits misses))
  constructor
  · rintro ⟨fits, misses⟩
    have count := counts others fits misses
    split_ifs at count with rounded
    · omega
    · exact ⟨others, by omega, fits, not_le.1 rounded⟩
  · rintro ⟨longest, small, fits, misses⟩
    have short := (lt_add_of_pos_right length (mul_pos Decimal.half_place_pos positive)).trans misses
    have count := counts longest fits short
    rw [if_neg (not_le.2 misses), Nat.mod_eq_of_lt small] at count
    obtain rfl : others = longest := by omega
    exact ⟨fits, short⟩

/-- The steps are counted in a word. -/
example : copies 0 1 (Decimal.ofInt (2 ^ 64)) = .ok 1 := by decide

end Counting

section Grid

variable {base : Register} {spacing : Decimal} {columns rows column row : Nat}

theorem offset_along (axis : Axis) (base : Register) (spacing : Decimal) (column row : Nat) :
    (offsetAt base spacing column row).along axis =
      (base.extent.along axis + spacing) * Decimal.ofInt (axis.pick column row : Nat) -
        base.lowest axis := by
  cases axis <;> rfl

theorem mem_grid_offsets {offset : Position} :
    offset ∈ (grid base spacing columns rows).offsets ↔
      ∃ row < rows, ∃ column < columns, offsetAt base spacing column row = offset := by
  simp [grid]

theorem mem_grid_sites {site : Site} :
    site ∈ (grid base spacing columns rows).sites ↔
      ∃ row < rows, ∃ column < columns,
        site ∈ (base.shift (offsetAt base spacing column row)).sites := by
  simp only [sites, List.mem_flatMap, mem_grid_offsets]
  constructor
  · rintro ⟨_, ⟨row, rowInside, column, columnInside, rfl⟩, member⟩
    exact ⟨row, rowInside, column, columnInside, member⟩
  · rintro ⟨row, rowInside, column, columnInside, member⟩
    exact ⟨_, ⟨row, rowInside, column, columnInside, rfl⟩, member⟩

variable (nonempty : base.sites ≠ [])

include nonempty

theorem lowest_copy (axis : Axis) :
    (base.shift (offsetAt base spacing column row)).lowest axis =
      (base.extent.along axis + spacing) * Decimal.ofInt (axis.pick column row : Nat) := by
  rw [Register.lowest_shift axis nonempty, offset_along]
  ring

theorem highest_copy (axis : Axis) :
    (base.shift (offsetAt base spacing column row)).highest axis =
      rowLength (base.extent.along axis) spacing (axis.pick column row) := by
  rw [Register.highest_shift axis nonempty, offset_along, Register.extent_along, rowLength]
  ring

variable (positive : 0 < spacing)

include positive

theorem step_pos (axis : Axis) : 0 < base.extent.along axis + spacing :=
  add_pos_of_nonneg_of_pos (Register.extent_nonneg axis nonempty) positive

theorem grid_nonneg {site : Site} (member : site ∈ (grid base spacing columns rows).sites)
    (axis : Axis) : 0 ≤ site.position.along axis := by
  obtain ⟨row, _, column, _, inside⟩ := mem_grid_sites.1 member
  have least := Register.lowest_least axis
    (Register.shift_nonempty nonempty (offsetAt base spacing column row))
  refine le_trans ?_ (least.2 ⟨site, inside, rfl⟩)
  rw [lowest_copy nonempty, mul_comm]
  exact Signal.multiple_nonneg (step_pos nonempty positive axis) _

theorem grid_reach (axis : Axis) :
    IsGreatest (Register.coordinates axis (grid base spacing (columns + 1) (rows + 1)).sites)
      (rowLength (base.extent.along axis) spacing (axis.pick columns rows)) := by
  have copies : ∀ column row, IsGreatest
      (Register.coordinates axis (base.shift (offsetAt base spacing column row)).sites)
      (rowLength (base.extent.along axis) spacing (axis.pick column row)) := by
    intro column row
    rw [← highest_copy nonempty]
    exact Register.highest_greatest axis (Register.shift_nonempty nonempty _)
  constructor
  · obtain ⟨site, inside, same⟩ := (copies columns rows).1
    exact ⟨site, mem_grid_sites.2 ⟨rows, Nat.lt_succ_self _, columns, Nat.lt_succ_self _, inside⟩,
      same⟩
  · rintro _ ⟨site, member, rfl⟩
    obtain ⟨row, rowInside, column, columnInside, inside⟩ := mem_grid_sites.1 member
    exact ((copies column row).2 ⟨site, inside, rfl⟩).trans
      (row_length_mono (step_pos nonempty positive axis)
        (axis.pick_le (Nat.le_of_lt_succ columnInside) (Nat.le_of_lt_succ rowInside)))

theorem separated_of_lt (axis : Axis) {column row nextColumn nextRow : Nat}
    (before : axis.pick column row < axis.pick nextColumn nextRow) :
    Register.Separated spacing (base.shift (offsetAt base spacing column row))
      (base.shift (offsetAt base spacing nextColumn nextRow)) := by
  refine ⟨axis, Or.inl ?_⟩
  rw [highest_copy nonempty, lowest_copy nonempty]
  have ordered := row_length_mono (step_pos nonempty positive axis) before
  calc rowLength (base.extent.along axis) spacing (axis.pick column row) + spacing
      = rowLength (base.extent.along axis) spacing (axis.pick column row + 1) -
          base.extent.along axis := by
        rw [rowLength, rowLength, Nat.cast_succ, Decimal.of_int_succ]
        ring
    _ ≤ rowLength (base.extent.along axis) spacing (axis.pick nextColumn nextRow) -
          base.extent.along axis := sub_le_sub_right ordered _
    _ = _ := by
        rw [rowLength]
        ring

theorem copies_separated : (grid base spacing columns rows).offsets.Pairwise fun first second =>
    Register.Separated spacing (base.shift first) (base.shift second) := by
  rw [grid, List.pairwise_flatMap]
  constructor
  · intro row _
    rw [List.pairwise_map]
    exact List.pairwise_lt_range.imp fun before => separated_of_lt nonempty positive .x before
  · refine List.pairwise_lt_range.imp fun before => ?_
    intro first firstMember second secondMember
    obtain ⟨_, _, rfl⟩ := List.mem_map.1 firstMember
    obtain ⟨_, _, rfl⟩ := List.mem_map.1 secondMember
    exact separated_of_lt nonempty positive .y before

end Grid

/-- All sites lie within a length along an axis, and some site of a larger tiling does not. -/
def FillsUp (axis : Axis) (length : Decimal) (tiling larger : Tiling) : Prop :=
  (∀ site ∈ tiling.sites, site.position.along axis ≤ length) ∧
    ∃ site ∈ larger.sites, length < site.position.along axis

theorem fills_up_iff {axis : Axis} {length reach further : Decimal} {tiling larger : Tiling}
    (reaches : IsGreatest (Register.coordinates axis tiling.sites) reach)
    (largerReaches : IsGreatest (Register.coordinates axis larger.sites) further) :
    FillsUp axis length tiling larger ↔ reach ≤ length ∧ length < further := by
  constructor
  · rintro ⟨within, site, member, beyond⟩
    obtain ⟨last, lastMember, same⟩ := reaches.1
    exact ⟨same ▸ within last lastMember,
      beyond.trans_le (largerReaches.2 ⟨site, member, rfl⟩)⟩
  · rintro ⟨within, beyond⟩
    obtain ⟨last, lastMember, same⟩ := largerReaches.1
    exact ⟨fun site member => (reaches.2 ⟨site, member, rfl⟩).trans within,
      last, lastMember, same ▸ beyond⟩

theorem fill_ok {base : Register} {spacing width height : Decimal} {tiling : Tiling}
    (filled : fill base spacing width height = .ok tiling) :
    0 < spacing ∧ base.sites ≠ [] ∧ ∃ columns rows,
      copies base.extent.x spacing width = .ok (columns + 1) ∧
      copies base.extent.y spacing height = .ok (rows + 1) ∧
      tiling = grid base spacing (columns + 1) (rows + 1) := by
  unfold fill at filled
  split_ifs at filled with notPositive none
  obtain ⟨columns, columnsOk, rest⟩ := (Outcome.bind_ok_iff _ _ _).1 filled
  obtain ⟨rows, rowsOk, last⟩ := (Outcome.bind_ok_iff _ _ _).1 rest
  split_ifs at last with missing
  rw [Outcome.pure_ok_iff] at last
  rw [Bool.or_eq_true, decide_eq_true_iff, decide_eq_true_iff, not_or] at missing
  obtain ⟨others, rfl⟩ := Nat.exists_eq_succ_of_ne_zero missing.1
  obtain ⟨otherRows, rfl⟩ := Nat.exists_eq_succ_of_ne_zero missing.2
  refine ⟨by simpa using notPositive, ?_, others, otherRows, columnsOk, rowsOk, last.symm⟩
  simpa [Register.size] using none

/-- The copies that fill an area stand in columns and rows above and to the right of the origin,
at least the spacing apart. Along each axis they stay within the area and leave no room for
another column or row exactly if counting by the rounded quotient finds the longest row. -/
theorem filled_area_full_iff {base : Register} {spacing width height : Decimal} {tiling : Tiling}
    (filled : fill base spacing width height = .ok tiling) :
    ∃ columns rows, 0 < columns ∧ 0 < rows ∧ tiling = grid base spacing columns rows ∧
      (∀ site ∈ tiling.sites, 0 ≤ site.position.x ∧ 0 ≤ site.position.y) ∧
      (tiling.offsets.Pairwise fun first second =>
        Register.Separated spacing (base.shift first) (base.shift second)) ∧
      (FillsUp .x width tiling (grid base spacing (columns + 1) rows) ↔
        CountsWhole base.extent.x spacing width) ∧
      (FillsUp .y height tiling (grid base spacing columns (rows + 1)) ↔
        CountsWhole base.extent.y spacing height) := by
  obtain ⟨positive, nonempty, columns, rows, columnsOk, rowsOk, rfl⟩ := fill_ok filled
  refine ⟨columns + 1, rows + 1, Nat.succ_pos _, Nat.succ_pos _, rfl, fun site member => ?_,
    copies_separated nonempty positive, ?_, ?_⟩
  · exact ⟨grid_nonneg nonempty positive member .x, grid_nonneg nonempty positive member .y⟩
  · rw [fills_up_iff (grid_reach nonempty positive .x) (grid_reach nonempty positive .x)]
    exact counts_whole_iff (step_pos nonempty positive .x) columnsOk
  · rw [fills_up_iff (grid_reach nonempty positive .y) (grid_reach nonempty positive .y)]
    exact counts_whole_iff (step_pos nonempty positive .y) rowsOk

def besideEachOther : Register := .ofPositions [⟨10, 10⟩, ⟨12, 10⟩]

/-- Two copies of them fit exactly in one row. -/
theorem filled_area_full_exact_fit :
    ∃ tiling columns rows, fill besideEachOther 2 6 0 = .ok tiling ∧
      tiling = grid besideEachOther 2 columns rows ∧
      tiling.sites.map (·.position) = [⟨0, 0⟩, ⟨2, 0⟩, ⟨4, 0⟩, ⟨6, 0⟩] ∧
      FillsUp .x 6 tiling (grid besideEachOther 2 (columns + 1) rows) ∧
      FillsUp .y 0 tiling (grid besideEachOther 2 columns (rows + 1)) := by
  have filled : ∃ tiling, fill besideEachOther 2 6 0 = .ok tiling ∧
      tiling.sites.map (·.position) = [⟨0, 0⟩, ⟨2, 0⟩, ⟨4, 0⟩, ⟨6, 0⟩] := ⟨_, rfl, by decide⟩
  obtain ⟨tiling, filled, positions⟩ := filled
  obtain ⟨columns, rows, _, _, isGrid, _, _, width, height⟩ := filled_area_full_iff filled
  refine ⟨tiling, columns, rows, filled, isGrid, positions, width.2 ⟨1, ?_⟩, height.2 ⟨0, ?_⟩⟩
  · decide
  · decide

def almostOne : Decimal := .ofScaled 99999999999999999 17

/-- Rounding the steps up to one lets a second copy stand beyond the area. -/
theorem second_copy_stands_outside :
    ∃ tiling, fill (.ofPositions [.origin]) 1 almostOne 0 = .ok tiling ∧
      ∃ site ∈ tiling.sites, almostOne < site.position.x :=
  ⟨grid (.ofPositions [.origin]) 1 2 1, rfl, ⟨⟨1, 0⟩, true⟩, by decide, by decide⟩

end Tiling

end Analog
