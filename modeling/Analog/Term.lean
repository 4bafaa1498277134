import Analog.Text.Blank
import Analog.Text.Source

/-!
# Terms

A term is a symbol, a list of terms in round brackets or an array of terms in square
brackets. This module holds the type and the rendering of a term on one line; the
reader and the layout over several lines stand in modules of their own.
-/

set_option autoImplicit false

namespace Analog

inductive Term where
  | symbol (name : String)
  | list (elements : List Term)
  | array (elements : List Term)

namespace Term

open Text

def isDelimiter (char : Char) : Bool :=
  char == '(' || char == ')' || char == '[' || char == ']' || char == ';' || isBlank char

def tagged (tag : String) (elements : List Term) : Term :=
  .list (.symbol tag :: elements)

/-- The text of a symbol. When quoting, a symbol that holds a delimiter is put between
quotation marks; nothing inside is escaped. -/
def symbolText (quote : Bool) (name : String) : String :=
  if quote && name.toList.any isDelimiter then "\"" ++ name ++ "\"" else name

mutual

/-- The term on one line, elements separated by single spaces. -/
def render (quote : Bool) : Term → String
  | .symbol name => symbolText quote name
  | .list elements => "(" ++ renderAll quote elements ++ ")"
  | .array elements => "[" ++ renderAll quote elements ++ "]"

def renderAll (quote : Bool) : List Term → String
  | [] => ""
  | [term] => render quote term
  | term :: rest => render quote term ++ " " ++ renderAll quote rest

end

def toText (term : Term) : String := term.render true

end Term

/-- A term together with the span from which it was read, and likewise for its parts. -/
inductive LocatedTerm where
  | symbol (span : Text.Span) (name : String)
  | list (span : Text.Span) (elements : List LocatedTerm)
  | array (span : Text.Span) (elements : List LocatedTerm)

namespace LocatedTerm

def span : LocatedTerm → Text.Span
  | .symbol span _ => span
  | .list span _ => span
  | .array span _ => span

def elements : LocatedTerm → List LocatedTerm
  | .symbol _ _ => []
  | .list _ elements => elements
  | .array _ elements => elements

mutual

def term : LocatedTerm → Term
  | .symbol _ name => .symbol name
  | .list _ elements => .list (terms elements)
  | .array _ elements => .array (terms elements)

def terms : List LocatedTerm → List Term
  | [] => []
  | element :: rest => term element :: terms rest

end

end LocatedTerm

end Analog
