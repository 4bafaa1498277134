import Analog.Report.Table
import Analog.Tagged.Writer
import Analog.Task

/-!
# Reports on tasks

A task is shown as a line on the whole and a table for every channel, with the times of
its breakpoints above their values, or as one term in tagged form.
-/

set_option autoImplicit false

namespace Analog.Task

/-- How tasks are shown: the widest cell, if there is a limit, and whether escapes are used. -/
structure Style where
  maxCellWidth : Option Nat := none
  escapes : Bool := true

def titleEscape : Escape := Escape.bold.foreground Escape.blue

def valueEscape : Escape := Escape.plain.foreground Escape.green

/-- Marks the values that are not zero; they stand after the title. -/
def markValues (row : Nat) (values : List Decimal) (table : Table) : Outcome Table :=
  (values.zipIdx 1).foldlM (fun marked (value, column) =>
    if value.isZero then .ok marked else marked.setEscape column row valueEscape) table

def channelTable (style : Style) (compiled : CompiledChannel) : Outcome Table := do
  let points := compiled.series.points
  let values := Breakpoints.values points
  let empty := Table.ofColumns (points.length + 1)
  let timed ← empty.addRow
    (compiled.channel.text :: (Breakpoints.times points).map Decimal.toText)
  let valued ← timed.addRow (compiled.channel.field.target.name :: values.map Decimal.toText)
  let titled ← valued.setEscape 0 0 titleEscape
  let titledBoth ← titled.setEscape 0 1 titleEscape
  let marked ← markValues 1 values titledBoth
  let capped := match style.maxCellWidth with
    | some limit => marked.capWidths limit
    | none => marked
  return { capped with escapes := style.escapes }

def channelReport (style : Style) (compiled : CompiledChannel) : Report :=
  match channelTable style compiled with
  | .ok table => table.print
  | .error failure => ⟨"", some failure⟩

def headline (task : Task) : String :=
  "batch " ++ toString task.batch ++ ": " ++ toString task.sites.length ++ " sites, duration " ++
    task.duration.toText ++ "\n"

def report (style : Style) (task : Task) : Report :=
  Report.ofText task.headline ++ Report.join (task.channels.map (channelReport style))

def channelTerm (compiled : CompiledChannel) : Term :=
  .tagged "channel" [.symbol compiled.channel.coupling.name, .symbol compiled.channel.field.name,
    compiled.channel.target.write, compiled.series.write]

def toTerm (task : Task) : Term :=
  .tagged "task" (.symbol (toString task.batch) ::
    .tagged "duration" [numberTerm task.duration] :: task.channels.map channelTerm)

end Analog.Task
