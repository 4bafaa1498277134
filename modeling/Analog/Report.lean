import Analog.Failure

/-!
# Reports

Text that is written piece by piece. If a piece cannot be written, the writing ends there
and what has been written before it stands.
-/

set_option autoImplicit false

namespace Analog

/-- The text written, and the failure that ended the writing, if any. -/
structure Report where
  text : String
  failure : Option Failure := none

namespace Report

def ofPieces : List (Outcome String) → Report
  | [] => ⟨"", none⟩
  | .ok piece :: rest =>
    let report := ofPieces rest
    { report with text := piece ++ report.text }
  | .error failure :: _ => ⟨"", some failure⟩

/-- One report after another, unless the first one ended early. -/
def append (first second : Report) : Report :=
  match first.failure with
  | none => { second with text := first.text ++ second.text }
  | some _ => first

instance : Append Report := ⟨append⟩

def ofText (text : String) : Report := ⟨text, none⟩

def join (reports : List Report) : Report :=
  reports.foldr (· ++ ·) (ofText "")

def outcome (report : Report) : Outcome String :=
  match report.failure with
  | none => .ok report.text
  | some failure => .error failure

end Report

end Analog
