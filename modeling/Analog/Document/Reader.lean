import Analog.Document

/-!
# Reading documents

The part of YAML that job files use, with JSON inside it: mappings and lists by
indentation, mappings and lists in brackets, and texts in quotes or without. Comments run
from a number sign to the end of the line. Lists and mappings nest, so the reading is
recursive; every step takes a letter off the input or goes to a smaller construct, and the
number of letters bounds the depth.
-/

set_option autoImplicit false

namespace Analog.Document

/-- A character with its place: lines are counted from one, columns from zero. -/
structure Letter where
  char : Char
  line : Nat
  column : Nat

def locate : (line column : Nat) → List Char → List Letter
  | _, _, [] => []
  | line, column, char :: rest =>
    ⟨char, line, column⟩ ::
      (if char = '\n' then locate (line + 1) 0 rest else locate line (column + 1) rest)

def plainLineEnds : List Char → List Char
  | [] => []
  | '\r' :: '\n' :: rest => '\n' :: plainLineEnds rest
  | '\r' :: rest => '\n' :: plainLineEnds rest
  | char :: rest => char :: plainLineEnds rest

/-- Control characters other than tabulators and line ends may not stand in a document. -/
def isForbidden (char : Char) : Bool :=
  (decide (char.toNat < 32) && char != '\t' && char != '\n') || char.toNat == 127 ||
    (decide (128 ≤ char.toNat) && decide (char.toNat < 160) && char.toNat != 0x85)

def isSpace (letter : Letter) : Bool := letter.char == ' ' || letter.char == '\t'

/-- Whether a construct ends here: at a blank, a line end or the end of the document. -/
def endsHere : List Letter → Bool
  | [] => true
  | letter :: _ => isSpace letter || letter.char == '\n'

/-- Drops blanks, line ends and comments. Between brackets tabulators are blanks too. -/
def dropLayout (bracketed : Bool) : (comment : Bool) → List Letter → List Letter
  | _, [] => []
  | true, letter :: rest => dropLayout bracketed (letter.char != '\n') rest
  | false, letter :: rest =>
    if letter.char = '#' then dropLayout bracketed true rest
    else if letter.char = ' ' || letter.char = '\n' || (bracketed && letter.char = '\t') then
      dropLayout bracketed false rest
    else letter :: rest

/-- What follows on the next lines, if nothing but a comment is left on this one. -/
def restOfLine? (letters : List Letter) : Option (List Letter) :=
  match letters.dropWhile isSpace with
  | [] => some []
  | letter :: rest =>
    if letter.char = '\n' then some rest
    else if letter.char = '#' then some (rest.dropWhile (·.char != '\n'))
    else none

/-- A line end inside a text is a space; empty lines are kept as line ends. -/
def folded (lineEnds : Nat) : List Char :=
  if lineEnds ≤ 1 then [' '] else List.replicate (lineEnds - 1) '\n'

/-- The text so far, in reverse, with a line end after it. -/
def fold (lineEnds : Nat) (reversed : List Char) : List Char :=
  folded lineEnds ++ reversed.dropWhile fun char => char == ' ' || char == '\t'

def dropLines : (lineEnds : Nat) → List Letter → Nat × List Letter
  | lineEnds, [] => (lineEnds, [])
  | lineEnds, letter :: rest =>
    if letter.char = '\n' then dropLines (lineEnds + 1) rest
    else if isSpace letter then dropLines lineEnds rest
    else (lineEnds, letter :: rest)

def hexDigit? (char : Char) : Option Nat :=
  if '0' ≤ char && char ≤ '9' then some (char.toNat - '0'.toNat)
  else if 'a' ≤ char && char ≤ 'f' then some (char.toNat - 'a'.toNat + 10)
  else if 'A' ≤ char && char ≤ 'F' then some (char.toNat - 'A'.toNat + 10)
  else none

/-- The character with a code of the given number of hexadecimal digits. -/
def codedChar? (count : Nat) (letters : List Letter) : Option Char := do
  let digits ← (letters.take count).mapM fun letter => hexDigit? letter.char
  if digits.length = count then
    let code := digits.foldl (fun value digit => value * 16 + digit) 0
    if code < 0xD800 || (0xDFFF < code && code ≤ 0x10FFFF) then some (Char.ofNat code) else none
  else none

def escapes : List (Char × Nat) :=
  [('0', 0), ('a', 7), ('b', 8), ('t', 9), ('\t', 9), ('n', 10), ('v', 11), ('f', 12), ('r', 13),
    ('e', 27), (' ', 32), ('"', 34), ('/', 47), ('\\', 92), ('N', 0x85), ('_', 0xA0),
    ('L', 0x2028), ('P', 0x2029), ('\'', 39)]

/-- Escapes that give a code, with the number of its digits. -/
def codeEscapes : List (Char × Nat) := [('x', 2), ('u', 4), ('U', 8)]

/-- The rest of a text in double quotes, the part before it in reverse. -/
def doubleQuoted : (fuel : Nat) → (reversed : List Char) → List Letter →
    Option (String × List Letter)
  | 0, _, _ => none
  | _, _, [] => none
  | fuel + 1, reversed, letter :: rest =>
    if letter.char = '"' then some (String.ofList reversed.reverse, rest)
    else if letter.char = '\n' then
      let (lineEnds, others) := dropLines 1 rest
      doubleQuoted fuel (fold lineEnds reversed) others
    else if letter.char = '\\' then
      match rest with
      | [] => none
      | escape :: others =>
        if escape.char = '\n' then doubleQuoted fuel reversed (others.dropWhile isSpace)
        else
          match escapes.lookup escape.char, codeEscapes.lookup escape.char with
          | some code, _ => doubleQuoted fuel (Char.ofNat code :: reversed) others
          | none, some count => do
            let char ← codedChar? count others
            doubleQuoted fuel (char :: reversed) (others.drop count)
          | none, none => none
    else doubleQuoted fuel (letter.char :: reversed) rest

/-- The rest of a text in single quotes, in which a quote is written twice. -/
def singleQuoted : (fuel : Nat) → (reversed : List Char) → List Letter →
    Option (String × List Letter)
  | 0, _, _ => none
  | _, _, [] => none
  | fuel + 1, reversed, letter :: rest =>
    if letter.char = '\'' then
      match rest with
      | next :: others =>
        if next.char = '\'' then singleQuoted fuel ('\'' :: reversed) others
        else some (String.ofList reversed.reverse, rest)
      | [] => some (String.ofList reversed.reverse, rest)
    else if letter.char = '\n' then
      let (lineEnds, others) := dropLines 1 rest
      singleQuoted fuel (fold lineEnds reversed) others
    else singleQuoted fuel (letter.char :: reversed) rest

def beginsPlain (bracketed : Bool) : List Letter → Bool
  | [] => false
  | letter :: rest =>
    if isSpace letter || letter.char = '\n' then false
    else if letter.char = '-' then !endsHere rest
    else if letter.char = '?' || letter.char = ':' then !bracketed && !endsHere rest
    else !",[]\x7b\x7d#&*!|>'\"%@\x60".toList.contains letter.char

/-- The rest of a text without quotes on one line. It ends at a colon or before a number sign that
stands apart, and between brackets at any of them and at a comma. -/
def plainLine (bracketed : Bool) : (reversed : List Char) → List Letter → List Char × List Letter
  | reversed, [] => (reversed, [])
  | reversed, letter :: rest =>
    let apart := reversed.head?.any fun char => char == ' ' || char == '\t'
    if letter.char = '\n' then (reversed, letter :: rest)
    else if letter.char = '#' && apart then (reversed, letter :: rest)
    else if letter.char = ':' && endsHere rest then (reversed, letter :: rest)
    else if bracketed && ",?[]\x7b\x7d".toList.contains letter.char then (reversed, letter :: rest)
    else plainLine bracketed (letter.char :: reversed) rest

def plainText (reversed : List Char) : String :=
  String.ofList (reversed.dropWhile fun char => char == ' ' || char == '\t').reverse

def textOnLine? (bracketed : Bool) (letters : List Letter) :
    Option (DocumentText × List Letter) :=
  match letters with
  | [] => none
  | letter :: rest =>
    if letter.char = '"' then do
      let (content, others) ← doubleQuoted (rest.length + 1) [] rest
      return (⟨letter.line, content, true⟩, others)
    else if letter.char = '\'' then do
      let (content, others) ← singleQuoted (rest.length + 1) [] rest
      return (⟨letter.line, content, true⟩, others)
    else if beginsPlain bracketed letters then
      let (reversed, others) := plainLine bracketed [] letters
      some (⟨letter.line, plainText reversed, false⟩, others)
    else none

/-- Continues a text without quotes on the following lines, as long as these are indented. -/
def plainLines (bracketed : Bool) (least : Nat) : (fuel : Nat) → (reversed : List Char) →
    List Letter → List Char × List Letter
  | 0, reversed, letters => (reversed, letters)
  | fuel + 1, reversed, letters =>
    match letters with
    | [] => (reversed, [])
    | letter :: rest =>
      if letter.char = '\n' then
        let (lineEnds, others) := dropLines 1 rest
        match others with
        | [] => (reversed, letters)
        | next :: _ =>
          let ends := next.char = '#' || (!bracketed && decide (next.column < least)) ||
            (bracketed && ",?[]\x7b\x7d:".toList.contains next.char)
          if ends then (reversed, letters)
          else
            let (longer, after) := plainLine bracketed (fold lineEnds reversed) others
            plainLines bracketed least fuel longer after
      else (reversed, letters)

def textNode? (bracketed : Bool) (least : Nat) (letters : List Letter) :
    Option (Document × List Letter) := do
  let (first, others) ← textOnLine? bracketed letters
  if first.quoted then return (.text first, others)
  else
    let (reversed, after) := plainLines bracketed least (others.length + 1) first.text.toList.reverse
      others
    return (.text { first with text := plainText reversed }, after)

/-- A colon that divides a name from a value. After a name in quotes the value may follow at
once. -/
def dividing (adjacent : Bool) : List Letter → Option (List Letter)
  | [] => none
  | letter :: rest =>
    if letter.char = ':' && (adjacent || endsHere rest) then some rest else none

def name? : Document → Option DocumentText
  | .text value => some value
  | _ => none

mutual

def bracketedNode (fuel : Nat) (letters : List Letter) : Option (Document × List Letter) :=
  match fuel with
  | 0 => none
  | fuel + 1 =>
    match letters with
    | [] => none
    | letter :: rest =>
      if letter.char = '[' then do
        let (items, others) ← bracketedItems fuel [] (dropLayout true false rest)
        return (.list letter.line items, others)
      else if letter.char = '\x7b' then do
        let (entries, others) ← bracketedEntries fuel [] (dropLayout true false rest)
        return (.mapping letter.line entries, others)
      else textNode? true 0 letters

/-- Items up to the closing bracket, those before in reverse. A pair by itself is a mapping. -/
def bracketedItems (fuel : Nat) (reversed : List Document) (letters : List Letter) :
    Option (List Document × List Letter) :=
  match fuel with
  | 0 => none
  | fuel + 1 =>
    match letters with
    | [] => none
    | letter :: rest =>
      if letter.char = ']' then some (reversed.reverse, rest)
      else do
        let (item, after) ← bracketedNode fuel letters
        let next := dropLayout true false after
        match dividing false next with
        | some valued =>
          let name ← name? item
          let (value, others) ← bracketedValue fuel name.line (dropLayout true false valued)
          bracketedRest fuel (.mapping name.line [(name, value)] :: reversed) others
        | none => bracketedRest fuel (item :: reversed) next

/-- What follows an item: a comma and more items, or the closing bracket. -/
def bracketedRest (fuel : Nat) (reversed : List Document) (letters : List Letter) :
    Option (List Document × List Letter) :=
  match fuel with
  | 0 => none
  | fuel + 1 =>
    match letters with
    | [] => none
    | letter :: rest =>
      if letter.char = ',' then bracketedItems fuel reversed (dropLayout true false rest)
      else if letter.char = ']' then some (reversed.reverse, rest)
      else none

/-- The value of an entry between brackets; nothing need be written. -/
def bracketedValue (fuel : Nat) (line : Nat) (letters : List Letter) :
    Option (Document × List Letter) :=
  match fuel with
  | 0 => none
  | fuel + 1 =>
    match letters with
    | [] => none
    | letter :: _ =>
      if ",]\x7d".toList.contains letter.char then some (null line, letters)
      else do
        let (value, others) ← bracketedNode fuel letters
        return (value, dropLayout true false others)

/-- Entries up to the closing brace, those before in reverse. -/
def bracketedEntries (fuel : Nat) (reversed : List (DocumentText × Document))
    (letters : List Letter) : Option (List (DocumentText × Document) × List Letter) :=
  match fuel with
  | 0 => none
  | fuel + 1 =>
    match letters with
    | [] => none
    | letter :: rest =>
      if letter.char = '\x7d' then some (reversed.reverse, rest)
      else do
        let (key, after) ← bracketedNode fuel letters
        let name ← name? key
        let next := dropLayout true false after
        let (value, others) ← match dividing name.quoted next with
          | some valued => bracketedValue fuel name.line (dropLayout true false valued)
          | none => some (null name.line, next)
        match others with
        | [] => none
        | closing :: more =>
          if closing.char = ',' then
            bracketedEntries fuel ((name, value) :: reversed) (dropLayout true false more)
          else if closing.char = '\x7d' then some (((name, value) :: reversed).reverse, more)
          else none

end

def isDash : List Letter → Bool
  | [] => false
  | letter :: rest => letter.char == '-' && endsHere rest

/-- A value that stands on the line of its name, and what follows on the next lines. -/
def valueOnLine (least : Nat) (letters : List Letter) : Option (Document × List Letter) :=
  match letters with
  | [] => none
  | letter :: _ => do
    let (value, others) ←
      if letter.char = '[' || letter.char = '\x7b' then bracketedNode (2 * letters.length + 2) letters
      else textNode? false least letters
    let after ← restOfLine? others
    return (value, after)

def beginsEntry (letters : List Letter) : Bool :=
  match textOnLine? false letters with
  | some (_, others) => (dividing false (others.dropWhile isSpace)).isSome
  | none => false

mutual

/-- A construct by indentation, in the column of its first letter. -/
def indentedNode (fuel : Nat) (least : Nat) (letters : List Letter) :
    Option (Document × List Letter) :=
  match fuel with
  | 0 => none
  | fuel + 1 =>
    match letters with
    | [] => none
    | letter :: _ =>
      if isDash letters then do
        let (items, others) ← indentedItems fuel letter.column [] letters
        return (.list letter.line items, others)
      else if beginsEntry letters then do
        let (entries, others) ← indentedEntries fuel letter.column [] letters
        return (.mapping letter.line entries, others)
      else valueOnLine least letters

/-- A construct on the lines below, if it is indented enough, or nothing. A list may stand in the
column of its name. -/
def nodeBelow (fuel : Nat) (line column : Nat) (dashAllowed : Bool) (letters : List Letter) :
    Option (Document × List Letter) :=
  match fuel with
  | 0 => none
  | fuel + 1 =>
    let below := dropLayout false false letters
    match below with
    | [] => some (null line, [])
    | letter :: _ =>
      if column < letter.column || (dashAllowed && letter.column = column && isDash below) then
        indentedNode fuel (column + 1) below
      else some (null line, below)

def indentedItems (fuel : Nat) (column : Nat) (reversed : List Document)
    (letters : List Letter) : Option (List Document × List Letter) :=
  match fuel with
  | 0 => none
  | fuel + 1 =>
    match letters with
    | [] => none
    | dash :: rest => do
      let (item, others) ← match restOfLine? rest with
        | some after => nodeBelow fuel dash.line column false after
        | none => indentedNode fuel (column + 1) (rest.dropWhile (·.char == ' '))
      let next := dropLayout false false others
      match next with
      | [] => some ((item :: reversed).reverse, [])
      | letter :: _ =>
        if letter.column = column && isDash next then
          indentedItems fuel column (item :: reversed) next
        else if column < letter.column then none
        else some ((item :: reversed).reverse, next)

/-- Entries of a mapping in a column, those before in reverse. -/
def indentedEntries (fuel : Nat) (column : Nat) (reversed : List (DocumentText × Document))
    (letters : List Letter) : Option (List (DocumentText × Document) × List Letter) :=
  match fuel with
  | 0 => none
  | fuel + 1 => do
    let (name, after) ← textOnLine? false letters
    let valued ← dividing false (after.dropWhile isSpace)
    let (value, others) ← match restOfLine? valued with
      | some below => nodeBelow fuel name.line column true below
      | none => valueOnLine (column + 1) (valued.dropWhile isSpace)
    let next := dropLayout false false others
    match next with
    | [] => some (((name, value) :: reversed).reverse, [])
    | letter :: _ =>
      if letter.column = column then indentedEntries fuel column ((name, value) :: reversed) next
      else if column < letter.column then none
      else some (((name, value) :: reversed).reverse, next)

end

/-- Reads a document. A text of blanks and comments only holds none. -/
def parse (text : String) : Outcome Document :=
  let chars := plainLineEnds text.toList
  if chars.any isForbidden then .error .malformedDocument
  else
    let letters := dropLayout false false (locate 1 0 chars)
    if letters.isEmpty then .error .endOfDocument
    else
      match indentedNode (3 * letters.length + 3) 0 letters with
      | some (document, rest) =>
        if (dropLayout false false rest).isEmpty then .ok document else .error .malformedDocument
      | none => .error .malformedDocument

end Analog.Document
