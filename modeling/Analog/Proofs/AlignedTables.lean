import Mathlib.Data.List.Basic
import Mathlib.Data.List.Forall2
import Analog.Proofs.Outcomes
import Analog.Report.Table

/-!
# Aligned tables

A table is aligned if it is written to its end and every field is as wide as its column. A field
that is cut needs room for the mark of the cut, and one that is too wide to be filled up is not as
wide as it should be. Nothing else goes wrong. So a table whose cells are not excessively long is
aligned unless the cap on the widths is below two and cuts a cell; then the writing breaks off.
-/

set_option autoImplicit false

namespace Analog

namespace Report

theorem of_pieces_ok (pieces : List String) :
    ofPieces (pieces.map .ok) = ⟨String.join pieces, none⟩ := by
  induction pieces with
  | nil => rfl
  | cons piece rest ih => rw [List.map_cons, ofPieces, ih, String.join_cons]

theorem of_pieces_whole_iff (pieces : List (Outcome String)) :
    (ofPieces pieces).failure = none ↔ ∀ piece ∈ pieces, ∃ text, piece = .ok text := by
  induction pieces with
  | nil => exact iff_of_true rfl (fun _ member => nomatch member)
  | cons piece rest ih =>
      rw [List.forall_mem_cons]
      cases piece with
      | ok text => exact ih.trans (and_iff_right ⟨text, rfl⟩).symm
      | error failure => exact iff_of_false (fun whole => nomatch whole) fun ⟨⟨_, written⟩, _⟩ =>
          nomatch written

end Report

namespace Table

def Printable (text : String) : Prop :=
  ∀ char ∈ text.toList, ' '.toNat ≤ char.toNat ∧ char.toNat ≤ '~'.toNat

instance (text : String) : Decidable (Printable text) := List.decidableBAll _ text.toList

theorem size_of_printable {char : Char} (last : char.toNat ≤ '~'.toNat) : char.utf8Size = 1 := by
  rw [Char.utf8Size_eq_one_iff, UInt32.le_iff_toNat_le]
  exact Nat.le_trans last (by decide)

theorem byte_size_of_printable {text : String} (printable : Printable text) :
    text.utf8ByteSize = text.length := by
  have sizes : ∀ chars : List Char,
      (∀ char ∈ chars, ' '.toNat ≤ char.toNat ∧ char.toNat ≤ '~'.toNat) →
      (String.ofList chars).utf8ByteSize = chars.length := by
    intro chars
    induction chars with
    | nil => exact fun _ => rfl
    | cons char rest ih =>
        intro each
        obtain ⟨first, others⟩ := List.forall_mem_cons.1 each
        rw [String.ofList_cons, String.utf8ByteSize_append, String.utf8ByteSize_singleton,
          size_of_printable first.2, ih others, List.length_cons, Nat.add_comm]
  rw [← String.length_toList, ← sizes text.toList printable, String.ofList_toList]

theorem length_cut {text : String} (printable : Printable text) {bytes : Nat}
    (short : bytes ≤ text.length) : (cut bytes text).length = bytes := by
  have taken : ∀ (chars : List Char) (count : Nat),
      (∀ char ∈ chars, ' '.toNat ≤ char.toNat ∧ char.toNat ≤ '~'.toNat) →
      cutChars count chars = chars.take count := by
    intro chars
    induction chars with
    | nil => exact fun count _ => by rw [cutChars, List.take_nil]
    | cons char rest ih =>
        intro count each
        obtain ⟨first, others⟩ := List.forall_mem_cons.1 each
        rw [cutChars, size_of_printable first.2]
        cases count with
        | zero => rfl
        | succ count => rw [if_pos (Nat.le_add_left 1 count), Nat.add_sub_cancel, ih count others,
            List.take_succ_cons]
  rw [cut, String.length_ofList, taken _ _ printable, List.length_take, String.length_toList,
    Nat.min_eq_left short]

theorem length_fill (width : Nat) (text : String) :
    (fill width text).length =
      if width ≤ widestField then max width text.length else text.length + 12 := by
  have empty : "".length = 0 := rfl
  have mark : wideMark.length = 12 := rfl
  unfold fill
  split_ifs
  · rw [String.length_append, String.length_pushn, empty]
    omega
  · rw [String.length_append, mark, Nat.add_comm]

/-- Whether a text of some length becomes a field as wide as its column. If it is cut, two
characters must be left for the mark of the cut. A field that is not filled up is too long, unless
the mark before it happens to be what is missing. -/
def Fits (width length : Nat) : Prop :=
  if length ≤ width then width ≤ widestField ∨ length + 12 = width
  else 2 ≤ width ∧ width ≤ widestField + 2

/-- The text of a cell is a space and a field of the width of its column. -/
def Fills (width : Nat) (cell : Cell) (field : String) : Prop :=
  cellText width cell = .ok (" " ++ field) ∧ field.length = width

theorem exists_fills_iff {cell : Cell} (printable : Printable cell.text) (width : Nat) :
    (∃ field, Fills width cell field) ↔ Fits width cell.text.length := by
  have only : ∀ field, cellText width cell = .ok (" " ++ field) →
      ((∃ other, Fills width cell other) ↔ field.length = width) := by
    intro field written
    refine ⟨?_, fun filled => ⟨field, written, filled⟩⟩
    rintro ⟨other, otherWritten, filled⟩
    rw [written, Except.ok.injEq, String.append_right_inj] at otherWritten
    rwa [otherWritten]
  have bytes := byte_size_of_printable printable
  unfold Fits
  split_ifs with whole
  · rw [only (fill width cell.text) (by rw [cellText, bytes, if_pos whole]), length_fill]
    split_ifs with narrow
    · exact iff_of_true (Nat.max_eq_left whole) (Or.inl narrow)
    · rw [or_iff_right narrow]
  · by_cases room : 2 ≤ width
    · have text : cellText width cell =
          .ok (" " ++ (fill (width - 2) (cut (width - 2) cell.text) ++ "..")) := by
        rw [cellText, bytes, if_neg whole, if_pos room, String.append_assoc]
      have dots : "..".length = 2 := rfl
      rw [only _ text, String.length_append, length_fill, length_cut printable (by omega), dots,
        and_iff_right room]
      split_ifs with narrow <;> omega
    · refine iff_of_false ?_ fun both => room both.1
      rintro ⟨field, written, _⟩
      rw [cellText, bytes, if_neg whole, if_neg room] at written
      cases written

/-- A cell is written unless it is cut in a column that has no room for the mark. -/
theorem cell_text_written_iff {cell : Cell} (printable : Printable cell.text) (width : Nat) :
    (∃ text, cellText width cell = .ok text) ↔ cell.text.length ≤ width ∨ 2 ≤ width := by
  rw [cellText, byte_size_of_printable printable]
  split_ifs with whole room
  · exact iff_of_true ⟨_, rfl⟩ (Or.inl whole)
  · exact iff_of_true ⟨_, rfl⟩ (Or.inr room)
  · exact iff_of_false (fun written => nomatch written) (not_or_intro whole room)

/-- A line of fields: a space before each, and a separator after it. -/
def lineOf (fields : List String) : String :=
  String.join (fields.map fun field => " " ++ field ++ " |") ++ "\n"

/-- What is written is these lines, line by line the cells of a row filled into the columns. -/
structure Shows (table : Table) (lines : List (List String)) : Prop where
  written : table.print = ⟨String.join (lines.map lineOf), none⟩
  filled : List.Forall₂ (fun row fields =>
    List.Forall₂ (fun column field => Fills column.1 column.2 field) (table.widths.zip row) fields)
    table.rows lines

def Aligned (table : Table) : Prop := ∃ lines, table.Shows lines

theorem row_pieces_bare {table : Table} (bare : table.escapes = false) (row : List Cell) :
    table.rowPieces row =
      (table.widths.zip row).flatMap
        (fun column => [cellText column.1 column.2, .ok " |"]) ++ [.ok "\n"] := by
  refine congrArg (· ++ [Except.ok "\n"]) (congrArg (List.flatMap · _) (funext fun column => ?_))
  change table.cellPieces column.1 column.2 = _
  rw [cellPieces, bare]
  cases column.2.escape <;> rfl

theorem row_pieces_filled {table : Table} (bare : table.escapes = false) {row : List Cell}
    {fields : List String}
    (filled : List.Forall₂ (fun column field => Fills column.1 column.2 field)
      (table.widths.zip row) fields) :
    table.rowPieces row =
      (fields.flatMap (fun field => [" " ++ field, " |"]) ++ ["\n"]).map .ok := by
  rw [row_pieces_bare bare, List.map_append]
  refine congrArg (· ++ [Except.ok "\n"]) ?_
  generalize table.widths.zip row = columns at filled
  induction filled with
  | nil => rfl
  | cons fills _ ih =>
      rw [List.flatMap_cons, List.flatMap_cons, List.map_append, ih, fills.1]
      rfl

theorem print_filled {table : Table} (bare : table.escapes = false) {lines : List (List String)}
    (filled : List.Forall₂ (fun row fields =>
      List.Forall₂ (fun column field => Fills column.1 column.2 field)
        (table.widths.zip row) fields) table.rows lines) :
    table.print = ⟨String.join (lines.map lineOf), none⟩ := by
  have pieces : table.rows.flatMap table.rowPieces =
      (lines.flatMap fun fields =>
        fields.flatMap (fun field => [" " ++ field, " |"]) ++ ["\n"]).map .ok := by
    rw [List.map_flatMap]
    generalize table.rows = rows at filled
    induction filled with
    | nil => rfl
    | cons first _ ih => rw [List.flatMap_cons, List.flatMap_cons, row_pieces_filled bare first, ih]
  have joined : ∀ fields : List String,
      String.join (fields.flatMap (fun field => [" " ++ field, " |"]) ++ ["\n"]) =
        lineOf fields := by
    intro fields
    rw [String.join_append, lineOf]
    refine congrArg (· ++ "\n") ?_
    induction fields with
    | nil => rfl
    | cons field rest ih =>
        rw [List.flatMap_cons, String.join_append, ih, List.map_cons, String.join_cons]
        simp only [String.join_cons, String.join_nil, String.append_empty]
  rw [print, pieces, Report.of_pieces_ok]
  refine congrArg (Report.mk · none) ?_
  clear filled pieces
  induction lines with
  | nil => rfl
  | cons fields rest ih =>
      rw [List.flatMap_cons, String.join_append, joined, ih, List.map_cons, String.join_cons]

/-- A table is aligned exactly if each cell becomes a field as wide as its column. -/
theorem aligned_iff_fits {table : Table} (bare : table.escapes = false)
    (printable : ∀ row ∈ table.rows, ∀ cell ∈ row, Printable cell.text) :
    table.Aligned ↔ ∀ row ∈ table.rows, ∀ column ∈ table.widths.zip row,
      Fits column.1 column.2.text.length := by
  constructor
  · rintro ⟨lines, shown⟩ row member column among
    obtain ⟨fields, _, each⟩ := Outcome.target_of_mem shown.filled member
    obtain ⟨field, _, fills⟩ := Outcome.target_of_mem each among
    exact (exists_fills_iff (printable row member column.2 (List.of_mem_zip among).2) _).1
      ⟨field, fills⟩
  · intro fits
    have filled : ∃ lines, List.Forall₂ (fun row fields =>
        List.Forall₂ (fun column field => Fills column.1 column.2 field)
          (table.widths.zip row) fields) table.rows lines := by
      refine Outcome.related_of_each fun row member =>
        Outcome.related_of_each fun column among => ?_
      exact (exists_fills_iff (printable row member column.2 (List.of_mem_zip among).2) _).2
        (fits row member column among)
    obtain ⟨lines, each⟩ := filled
    exact ⟨lines, print_filled bare each, each⟩

/-- The lines of a table with a cell for every column have the width of the table. -/
theorem Shows.widths {table : Table} {lines : List (List String)} (shown : table.Shows lines)
    (whole : ∀ row ∈ table.rows, row.length = table.widths.length) :
    ∀ fields ∈ lines, fields.map String.length = table.widths := by
  intro fields member
  obtain ⟨row, among, each⟩ := Outcome.source_of_mem shown.filled member
  have first : (table.widths.zip row).map Prod.fst = table.widths :=
    List.map_fst_zip (whole row among).ge
  rw [← first]
  exact Outcome.map_eq_of_related each fun column field fills => fills.2

theorem length_line (fields : List String) :
    (lineOf fields).length = ((fields.map String.length).map (· + 3)).sum + 1 := by
  have newline : "\n".length = 1 := rfl
  rw [lineOf, String.length_append, String.length_join, newline]
  refine congrArg (List.sum · + 1) ?_
  rw [List.map_map, List.map_map]
  refine List.map_congr_left fun field _ => ?_
  have space : " ".length = 1 := rfl
  have separator : " |".length = 2 := rfl
  simp only [Function.comp_apply, String.length_append, space, separator]
  omega

theorem print_whole_iff {table : Table} (bare : table.escapes = false) :
    table.print.failure = none ↔ ∀ row ∈ table.rows, ∀ column ∈ table.widths.zip row,
      ∃ text, cellText column.1 column.2 = .ok text := by
  rw [print, Report.of_pieces_whole_iff]
  constructor
  · intro each row member column among
    refine each _ (List.mem_flatMap.2 ⟨row, member, ?_⟩)
    rw [row_pieces_bare bare]
    exact List.mem_append_left _ (List.mem_flatMap.2 ⟨column, among, List.mem_cons_self⟩)
  · intro each piece member
    obtain ⟨row, rowMember, among⟩ := List.mem_flatMap.1 member
    rw [row_pieces_bare bare] at among
    rcases List.mem_append.1 among with inside | last
    · obtain ⟨column, columnMember, found⟩ := List.mem_flatMap.1 inside
      rcases List.mem_cons.1 found with rfl | separator
      · exact each row rowMember column columnMember
      · exact ⟨_, List.mem_singleton.1 separator⟩
    · exact ⟨_, List.mem_singleton.1 last⟩

def ofRows (columns : Nat) (texts : List (List String)) : Outcome Table :=
  texts.foldlM addRow (ofColumns columns)

/-- The table has these texts as its cells, and its columns are as wide as the widest of them. -/
structure Measures (table : Table) (texts : List (List String)) : Prop where
  rows : table.rows = texts.map fun row => row.map fun text => { text }
  covers : ∀ row ∈ texts,
    List.Forall₂ (fun width text => text.utf8ByteSize ≤ width) table.widths row
  least : ∀ bound, (∀ row ∈ texts, ∀ text ∈ row, text.utf8ByteSize ≤ bound) →
    ∀ width ∈ table.widths, width ≤ bound

theorem measures_of_columns (columns : Nat) : (ofColumns columns).Measures [] where
  rows := rfl
  covers := fun _ member => nomatch member
  least := fun bound _ _ member =>
    (List.eq_of_mem_replicate member).symm ▸ Nat.zero_le bound

theorem Measures.add {table : Table} {texts : List (List String)} (measures : table.Measures texts)
    {row : List String} (whole : row.length = table.width) :
    ∃ next, table.addRow row = .ok next ∧ next.width = table.width ∧
      next.Measures (texts ++ [row]) := by
  have lengths : (List.zipWith max table.widths (row.map String.utf8ByteSize)).length =
      table.widths.length := by
    rw [List.length_zipWith, List.length_map, whole, width, Nat.min_self]
  refine ⟨_, if_pos whole, lengths, ?_, ?_, ?_⟩
  · rw [List.map_append, ← measures.rows]
    rfl
  · intro other member
    rw [List.forall₂_iff_get]
    rcases List.mem_append.1 member with earlier | last
    · obtain ⟨same, covered⟩ := List.forall₂_iff_get.1 (measures.covers other earlier)
      refine ⟨lengths.trans same, fun place before within => ?_⟩
      have inside := covered place (lengths ▸ before) within
      simp only [List.get_eq_getElem, List.getElem_zipWith] at inside ⊢
      exact inside.trans (Nat.le_max_left _ _)
    · obtain rfl := List.mem_singleton.1 last
      refine ⟨lengths.trans whole.symm, fun place before within => ?_⟩
      simp only [List.get_eq_getElem, List.getElem_zipWith, List.getElem_map]
      exact Nat.le_max_right _ _
  · intro bound each width member
    obtain ⟨earlier, last⟩ := List.forall_mem_append.1 each
    obtain ⟨place, before, rfl⟩ := List.mem_iff_getElem.1 member
    rw [List.getElem_zipWith, List.getElem_map]
    exact Nat.max_le.2 ⟨measures.least bound earlier _ (List.getElem_mem _),
      last row List.mem_cons_self _ (List.getElem_mem _)⟩

theorem of_rows_measures {columns : Nat} {texts : List (List String)}
    (whole : ∀ row ∈ texts, row.length = columns) :
    ∃ built, ofRows columns texts = .ok built ∧ built.Measures texts := by
  have added : ∀ (later before : List (List String)) (table : Table), table.Measures before →
      (∀ row ∈ later, row.length = table.width) →
      ∃ built, later.foldlM addRow table = .ok built ∧ built.Measures (before ++ later) := by
    intro later
    induction later with
    | nil => exact fun before table measures _ =>
        ⟨table, rfl, (List.append_nil before).symm ▸ measures⟩
    | cons row rest ih =>
        intro before table measures each
        obtain ⟨first, others⟩ := List.forall_mem_cons.1 each
        obtain ⟨next, one, same, grown⟩ := measures.add first
        obtain ⟨built, run, final⟩ := ih _ next grown (same ▸ others)
        rw [List.append_assoc] at final
        exact ⟨built, by rw [List.foldlM_cons, one]; exact run, final⟩
  obtain ⟨built, run, measures⟩ := added texts [] (ofColumns columns) (measures_of_columns columns)
    (fun row member => (whole row member).trans List.length_replicate.symm)
  exact ⟨built, run, measures⟩

/-- The table as it is written without escapes, its widths capped. -/
def plain (table : Table) (limit : Nat) : Table :=
  { table.capWidths limit with escapes := false }

/-- The cap leaves room for the mark of a cut, or nothing is cut. -/
def Spares (limit : Nat) (texts : List (List String)) : Prop :=
  2 ≤ limit ∨ ∀ row ∈ texts, ∀ text ∈ row, text.length ≤ limit

/-- What holds of all cells in their columns is a property of the texts. -/
theorem Measures.forall_columns {table : Table} {texts : List (List String)}
    (measures : table.Measures texts) (limit : Nat) (property : Nat → String → Prop) :
    (∀ row ∈ (table.plain limit).rows, ∀ column ∈ (table.plain limit).widths.zip row,
        property column.1 column.2.text) ↔
      ∀ row ∈ texts, ∀ column ∈ (table.plain limit).widths.zip row,
        property column.1 column.2 := by
  have rows : (table.plain limit).rows = _ := measures.rows
  rw [rows, List.forall_mem_map]
  refine forall₂_congr fun row _ => ?_
  rw [List.zip_map_right, List.forall_mem_map]
  rfl

/-- A column under a cap: what it would be, and that the text would not have been cut then. -/
theorem Measures.uncapped {table : Table} {texts : List (List String)}
    (measures : table.Measures texts) {limit : Nat} {row : List String} (member : row ∈ texts)
    {column : Nat × String} (among : column ∈ (table.plain limit).widths.zip row) :
    ∃ full ∈ table.widths, column.1 = min full limit ∧ column.2.utf8ByteSize ≤ full := by
  have capped : (table.plain limit).widths.zip row =
      (table.widths.zip row).map (Prod.map (min · limit) id) := List.zip_map_left
  rw [capped] at among
  obtain ⟨⟨full, text⟩, before, rfl⟩ := List.mem_map.1 among
  exact ⟨full, (List.of_mem_zip before).1, rfl,
    (List.forall₂_iff_zip.1 (measures.covers row member)).2 before⟩

theorem Measures.whole {table : Table} {texts : List (List String)}
    (measures : table.Measures texts) (limit : Nat) {row : List String} (member : row ∈ texts) :
    row.length = (table.plain limit).widths.length :=
  (measures.covers row member).length_eq.symm.trans (List.length_map _).symm

theorem Measures.column {table : Table} {texts : List (List String)}
    (measures : table.Measures texts) (limit : Nat) {row : List String} (member : row ∈ texts)
    {text : String} (among : text ∈ row) :
    ∃ width, (width, text) ∈ (table.plain limit).widths.zip row := by
  rw [← List.map_snd_zip (measures.whole limit member).le] at among
  obtain ⟨⟨width, _⟩, found, rfl⟩ := List.mem_map.1 among
  exact ⟨width, found⟩

/-- The columns have room for the mark, or for the text, exactly if the cap spares the texts. -/
theorem Measures.spares_iff {table : Table} {texts : List (List String)}
    (measures : table.Measures texts) (limit : Nat)
    (printable : ∀ row ∈ texts, ∀ text ∈ row, Printable text) :
    (∀ row ∈ texts, ∀ column ∈ (table.plain limit).widths.zip row,
        column.2.length ≤ column.1 ∨ 2 ≤ column.1) ↔ Spares limit texts := by
  constructor
  · intro each
    refine or_iff_not_imp_left.2 fun tight row member text among => ?_
    obtain ⟨width, found⟩ := measures.column limit member among
    obtain ⟨full, _, capped, _⟩ := measures.uncapped member found
    have room := each row member _ found
    simp only at capped room
    omega
  · intro spared row member column found
    obtain ⟨full, _, capped, covered⟩ := measures.uncapped member found
    have among := (List.of_mem_zip found).2
    rw [byte_size_of_printable (printable row member _ among)] at covered
    rcases spared with room | short
    · omega
    · have := short row member _ among
      omega

theorem fits_narrow {width : Nat} (narrow : width ≤ widestField) (length : Nat) :
    Fits width length ↔ length ≤ width ∨ 2 ≤ width := by
  unfold Fits
  split_ifs with whole <;> omega

/-- Rows of the right length make a table. Under a cap it is written to its end exactly if the cap
spares its texts, and it is aligned exactly if each of them fits. Unless a text is excessively long
these are the same. All lines of an aligned table have its width. -/
theorem capped_table_aligned_iff {columns : Nat} {texts : List (List String)} (limit : Nat)
    (whole : ∀ row ∈ texts, row.length = columns)
    (printable : ∀ row ∈ texts, ∀ text ∈ row, Printable text) :
    ∃ built, ofRows columns texts = .ok built ∧
      ((built.plain limit).print.failure = none ↔ Spares limit texts) ∧
      ((built.plain limit).Aligned ↔
        ∀ row ∈ texts, ∀ column ∈ (built.plain limit).widths.zip row,
          Fits column.1 column.2.length) ∧
      ((∀ row ∈ texts, ∀ text ∈ row, text.length ≤ widestField) →
        ((built.plain limit).Aligned ↔ Spares limit texts)) ∧
      ∀ lines, (built.plain limit).Shows lines → ∀ fields ∈ lines,
        fields.map String.length = (built.plain limit).widths ∧
        (lineOf fields).length = ((built.plain limit).widths.map (· + 3)).sum + 1 := by
  obtain ⟨built, added, measures⟩ := of_rows_measures whole
  have rows : (built.plain limit).rows = _ := measures.rows
  have printableCells : ∀ row ∈ (built.plain limit).rows, ∀ cell ∈ row, Printable cell.text := by
    rw [rows]
    simpa only [List.forall_mem_map] using printable
  have aligned : (built.plain limit).Aligned ↔ ∀ row ∈ texts,
      ∀ column ∈ (built.plain limit).widths.zip row, Fits column.1 column.2.length :=
    (aligned_iff_fits rfl printableCells).trans
      (measures.forall_columns limit fun width text => Fits width text.length)
  refine ⟨built, added, ?_, aligned, fun short => ?_, fun lines shown fields member => ?_⟩
  · rw [print_whole_iff rfl, ← measures.spares_iff limit printable,
      ← measures.forall_columns limit fun width text => text.length ≤ width ∨ 2 ≤ width]
    refine forall₂_congr fun row member => forall₂_congr fun column among => ?_
    exact cell_text_written_iff
      (printableCells row member column.2 (List.of_mem_zip among).2) column.1
  · rw [aligned, ← measures.spares_iff limit printable]
    refine forall₂_congr fun row member => forall₂_congr fun column among => fits_narrow ?_ _
    obtain ⟨full, wide, capped, _⟩ := measures.uncapped member among
    have bound := measures.least widestField (fun row member text among => by
      rw [byte_size_of_printable (printable row member text among)]
      exact short row member text among) full wide
    exact capped.le.trans ((Nat.min_le_left _ _).trans bound)
  · have wholeCells : ∀ row ∈ (built.plain limit).rows,
        row.length = (built.plain limit).widths.length := by
      rw [rows, List.forall_mem_map]
      exact fun row member => (List.length_map _).trans (measures.whole limit member)
    have widths := shown.widths wholeCells fields member
    exact ⟨widths, by rw [length_line, widths]⟩

/-- Two rows of two columns, one of them cut. -/
theorem two_rows_aligned :
    ∃ built, ofRows 2 [["at", "1.25"], ["value", "0"]] = .ok built ∧
      (built.plain 4).Aligned := by
  obtain ⟨built, added, _, _, aligned, _⟩ :=
    @capped_table_aligned_iff 2 [["at", "1.25"], ["value", "0"]] 4 (by decide) (by decide)
  exact ⟨built, added, (aligned (by decide)).2 (Or.inl (by decide))⟩

/-- Under a cap of zero nothing can be cut, so that the writing breaks off. -/
theorem nothing_cut_to_zero :
    ∃ built, ofRows 1 [["ab"]] = .ok built ∧ Printable "ab" ∧
      (built.plain 0).print = ⟨"", some (.abort .missing)⟩ ∧ ¬(built.plain 0).Aligned := by
  have broken : (plain { widths := [2], rows := [[{ text := "ab" }]] } 0).print =
      ⟨"", some (.abort .missing)⟩ := rfl
  refine ⟨_, rfl, by decide, broken, ?_⟩
  rintro ⟨lines, shown⟩
  exact nomatch congrArg Report.failure (broken.symm.trans shown.written)

end Table

end Analog
