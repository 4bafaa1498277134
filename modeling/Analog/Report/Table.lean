import Analog.Report
import Analog.Report.Escape

/-!
# Tables

Rows of cells in columns of a common width. The width of a column is that of its widest
cell in bytes, and can be capped. A cell that is too wide is cut, with two dots at its
end, so a column must be at least that wide; shorter cells are filled up with spaces on
the left by characters. Fields of more than a million characters are not filled up; a mark
stands before their text instead.
-/

set_option autoImplicit false

namespace Analog

structure Cell where
  text : String
  escape : Option Escape := none

structure Table where
  /-- The width of every column. -/
  widths : List Nat
  rows : List (List Cell) := []
  /-- Whether escapes are written. -/
  escapes : Bool := true

namespace Table

def ofColumns (columns : Nat) : Table := { widths := List.replicate columns 0 }

def width (table : Table) : Nat := table.widths.length

def height (table : Table) : Nat := table.rows.length

def cell (table : Table) (column row : Nat) : Outcome Cell :=
  match (table.rows[row]?).bind (·[column]?) with
  | some found => .ok found
  | none => .error (.abort .missing)

def addRow (table : Table) (texts : List String) : Outcome Table :=
  if texts.length = table.width then
    .ok { table with
      widths := List.zipWith max table.widths (texts.map String.utf8ByteSize)
      rows := table.rows ++ [texts.map fun text => { text }] }
  else .error (.abort .wrongColumnCount)

def setEscape (table : Table) (column row : Nat) (escape : Escape) : Outcome Table := do
  let found ← table.cell column row
  return { table with
    rows := table.rows.modify row (·.set column { found with escape := some escape }) }

def capWidths (table : Table) (limit : Nat) : Table :=
  { table with widths := table.widths.map (min · limit) }

/-- What is left of characters when their text is cut to a number of bytes. Bytes of a character
that does not fit as a whole show as replacement characters. -/
def cutChars : (bytes : Nat) → List Char → List Char
  | _, [] => []
  | bytes, char :: rest =>
    if char.utf8Size ≤ bytes then char :: cutChars (bytes - char.utf8Size) rest
    else List.replicate bytes '\ufffd'

def cut (bytes : Nat) (text : String) : String :=
  String.ofList (cutChars bytes text.toList)

def widestField : Nat := 1000000

def wideMark : String := "%!(BADWIDTH)"

def fill (width : Nat) (text : String) : String :=
  if width ≤ widestField then "".pushn ' ' (width - text.length) ++ text
  else wideMark ++ text

def cellText (width : Nat) (cell : Cell) : Outcome String :=
  if cell.text.utf8ByteSize ≤ width then .ok (" " ++ fill width cell.text)
  else if 2 ≤ width then .ok (" " ++ fill (width - 2) (cut (width - 2) cell.text) ++ "..")
  else .error (.abort .missing)

/-- The pieces of a cell: its text between escapes, and the separator. -/
def cellPieces (table : Table) (width : Nat) (cell : Cell) : List (Outcome String) :=
  match cell.escape with
  | some escape =>
    if table.escapes then
      [.ok escape.text, cellText width cell, .ok Escape.reset.text, .ok " |"]
    else [cellText width cell, .ok " |"]
  | none => [cellText width cell, .ok " |"]

def rowPieces (table : Table) (row : List Cell) : List (Outcome String) :=
  (List.zip table.widths row).flatMap (fun (width, cell) => table.cellPieces width cell) ++
    [.ok "\n"]

def print (table : Table) : Report :=
  Report.ofPieces (table.rows.flatMap table.rowPieces)

end Table

end Analog
