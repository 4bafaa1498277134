import Analog.Failure

/-!
# Documents

Documents that describe jobs and devices: texts, lists and mappings, each with the line on
which it begins. This module holds the type and the reading of values out of documents. A
number that is none ends the reading at once; a part of the wrong shape or under an
unknown name is only noted, and makes the whole document malformed in the end.
-/

set_option autoImplicit false

namespace Analog

/-- A text in a document. Only a text without quotes can stand for nothing. -/
structure DocumentText where
  line : Nat
  text : String
  quoted : Bool

namespace DocumentText

def isNull (given : DocumentText) : Bool :=
  !given.quoted && ["", "~", "null", "Null", "NULL"].contains given.text

end DocumentText

inductive Document where
  | text (value : DocumentText)
  | list (line : Nat) (items : List Document)
  | mapping (line : Nat) (entries : List (DocumentText × Document))

namespace Document

def line : Document → Nat
  | text value => value.line
  | list line _ => line
  | mapping line _ => line

def isNull : Document → Bool
  | text value => value.isNull
  | _ => false

def null (line : Nat) : Document := .text ⟨line, "", false⟩

/-- Reading values out of a document, with a note of whether some part did not fit. -/
abbrev Decoding := StateT Bool Outcome

/-- Notes a part that does not fit, in place of which the given value is used. -/
def misfit {α : Type} (fallback : α) : Decoding α := do
  set true
  return fallback

def number? (document : Document) : Decoding (Option Decimal) :=
  if document.isNull then pure none
  else
    match document with
    | text value =>
      match Decimal.ofText value.text with
      | .ok number => pure (some number)
      | .error _ => throw (.invalidNumber value.line value.text)
    | other => throw (.expectedNumber other.line)

def text? (document : Document) : Decoding (Option String) :=
  match document with
  | text value => pure (if value.isNull then none else some value.text)
  | _ => misfit none

/-- The values of a list, nothing left out, or nothing in place of a list. -/
def items {α : Type} (read : Document → Decoding (Option α)) (document : Document) :
    Decoding (List α) :=
  if document.isNull then pure []
  else
    match document with
    | list _ given => do
      let values ← given.mapM read
      return values.filterMap id
    | _ => misfit []

def hasRepetition : List (DocumentText × Document) → Bool
  | [] => false
  | entry :: rest => rest.any (·.1.text == entry.1.text) || hasRepetition rest

/-- Works through the entries of a mapping whose names are all different. -/
def entries {α : Type} (step : α → String → Document → Decoding α) (initial : α)
    (document : Document) : Decoding α :=
  if document.isNull then pure initial
  else
    match document with
    | mapping _ given =>
      if hasRepetition given then misfit initial
      else
        given.foldlM (fun state entry =>
          if entry.1.isNull then pure state else step state entry.1.text entry.2) initial
    | _ => misfit initial

def record? {α : Type} (step : α → String → Document → Decoding α) (initial : α)
    (document : Document) : Decoding (Option α) := do
  if document.isNull then return none
  else
    let value ← entries step initial document
    return some value

/-- The value read from a document, all parts of which must fit. -/
def decode {α : Type} (read : Document → Decoding α) (document : Document) : Outcome α := do
  let (value, misfits) ← (read document).run false
  if misfits then .error .malformedDocument else return value

end Document

end Analog
