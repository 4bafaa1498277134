import Analog.Term

/-!
# Laying out terms over several lines

A list that does not fit in the width is broken after its head, and its other elements
follow on lines of their own, indented by two. Widths count bytes, and brackets that
close outer lists are not counted.
-/

set_option autoImplicit false

namespace Analog.Term

/-- Spaces by which the elements of a broken list are moved in. -/
def indentStep : Nat := 2

def width (term : Term) : Nat := term.toText.utf8ByteSize

mutual

def layoutAt (limit indent : Nat) : Term → String
  | .symbol name => symbolText true name
  | .array elements => (Term.array elements).toText
  | .list [] => "()"
  | .list [element] => (Term.list [element]).toText
  | .list (head :: second :: rest) =>
    if indent + (Term.list (head :: second :: rest)).width ≤ limit then
      (Term.list (head :: second :: rest)).toText
    else
      "(" ++ head.toText ++ layoutLines limit (indent + indentStep) (second :: rest) ++ ")"

/-- Terms on lines of their own, each at the given column. -/
def layoutLines (limit indent : Nat) : List Term → String
  | [] => ""
  | term :: rest =>
    "\n" ++ String.ofList (List.replicate indent ' ') ++ layoutAt limit indent term ++
      layoutLines limit indent rest

end

/-- Lays a term out so that, where possible, no line is wider than the limit. -/
def layout (limit : Nat) (term : Term) : String :=
  term.layoutAt limit 0

end Analog.Term
