/-!
# Source texts and positions

A source is a named text. Positions count characters from zero, spans are half-open
and lines count from one. A syntax error names a span of a source, and can show the
line on which it starts with the offending part underlined.
-/

set_option autoImplicit false

namespace Analog.Text

structure Source where
  name : String
  text : String

/-- The characters from `start` up to but not including `stop`. -/
structure Span where
  start : Nat
  stop : Nat
  deriving DecidableEq

/-- The span from `start` to `stop`; an inverted pair of positions has none. -/
def Span.of? (start stop : Nat) : Option Span :=
  if stop < start then none else some ⟨start, stop⟩

def Span.length (span : Span) : Nat := span.stop - span.start

/-- A line of a text: its number, the position at which it starts and its characters. -/
structure Line where
  number : Nat
  start : Nat
  chars : List Char

namespace Line

def text (line : Line) : String := String.ofList line.chars

def length (line : Line) : Nat := line.chars.length

/-- Walks `remaining` characters ahead of `position`, and returns the line reached there.
The line under way starts at `start`, and `pending` holds its text from there on. -/
def seek (number start : Nat) (pending : List Char) (position : Nat) :
    (remaining : Nat) → (rest : List Char) → Line
  | 0, _ => ⟨number, start, pending.takeWhile (· != '\n')⟩
  | _, [] => ⟨number, start, pending.takeWhile (· != '\n')⟩
  | remaining + 1, char :: rest =>
    if char = '\n' then seek (number + 1) (position + 1) rest (position + 1) remaining rest
    else seek number start pending (position + 1) remaining rest

/-- The line that holds a position. Positions past the end lie on the last line. -/
def enclosing (text : String) (position : Nat) : Line :=
  seek 1 0 text.toList 0 position text.toList

end Line

/-- A complaint about a span of a source. -/
structure SyntaxError where
  source : Source
  span : Span
  complaint : String

namespace SyntaxError

def line (error : SyntaxError) : Line :=
  Line.enclosing error.source.text error.span.start

def message (error : SyntaxError) : String :=
  error.source.name ++ ":" ++ toString error.line.number ++ ":" ++
    toString (1 + error.span.start - error.line.start) ++ ": " ++ error.complaint

/-- The complaint above its line, with the offending part underlined. At least one character
is marked, and a span over several lines is marked up to the end of the first. -/
def highlight (error : SyntaxError) : String :=
  let line := error.line
  let column := min (error.span.start - line.start) line.length
  let marks := max 1 (min (line.length - column) error.span.length)
  error.source.name ++ ":" ++ toString line.number ++ ":" ++ toString (1 + column) ++ "-" ++
    toString (1 + column + marks) ++ " " ++ error.complaint ++ "\n\n" ++ line.text ++ "\n" ++
    String.ofList (List.replicate column ' ' ++ List.replicate marks '^')

end SyntaxError

/-- Spans recorded for named items of a source. -/
structure SpanMap where
  source : Source
  entries : List (String × Span) := []

namespace SpanMap

def find? (spans : SpanMap) (item : String) : Option Span :=
  spans.entries.lookup item

def insert (spans : SpanMap) (item : String) (span : Span) : SpanMap :=
  match spans.find? item with
  | some _ => spans
  | none => { spans with entries := spans.entries ++ [(item, span)] }

def contains (spans : SpanMap) (item : String) : Bool :=
  (spans.find? item).isSome

/-- A complaint about an item. An item without a span is placed at the start of the text. -/
def complain (spans : SpanMap) (item complaint : String) : SyntaxError :=
  ⟨spans.source, (spans.find? item).getD ⟨0, 0⟩, complaint⟩

end SpanMap

end Analog.Text
