import Analog.Text.Blank

/-!
# Quoted texts

A text between quotation marks on one line. Quotation marks and backslashes are
escaped, and so is every character that is not visible.
-/

set_option autoImplicit false

namespace Analog.Text

/-- Ranges, ends included, of characters beyond ASCII that have no visible form: controls,
format marks, surrogates, private use and places that are not assigned. -/
def invisibleRanges : List (Nat × Nat) :=
  [(0x7F, 0x9F), (0xAD, 0xAD), (0x378, 0x379), (0x600, 0x605), (0x61C, 0x61C), (0x6DD, 0x6DD),
    (0x70F, 0x70F), (0x180E, 0x180E), (0x200B, 0x200F), (0x202A, 0x202E), (0x2060, 0x206F),
    (0xD800, 0xF8FF), (0xFEFF, 0xFEFF), (0xFFF0, 0xFFFB), (0xFFFE, 0xFFFF), (0x1FFFE, 0x1FFFF),
    (0xE0000, 0xE00FF), (0xE01F0, 0x10FFFF)]

/-- Whether a character has a visible form; of the blanks, only the plain space counts. -/
def isVisible (char : Char) : Bool :=
  if char.toNat < 0x80 then decide (0x20 ≤ char.toNat) && decide (char.toNat < 0x7F)
  else !isBlank char &&
    !invisibleRanges.any fun range => range.1 ≤ char.toNat && char.toNat ≤ range.2

/-- Lower-case hexadecimal digits, padded with zeros to a least length. -/
def hexDigits (length value : Nat) : List Char :=
  let digits := Nat.toDigits 16 value
  List.replicate (length - digits.length) '0' ++ digits

def letterEscapes : List (Char × Char) :=
  [('\x07', 'a'), ('\x08', 'b'), ('\x0c', 'f'), ('\n', 'n'), ('\r', 'r'), ('\t', 't'), ('\x0b', 'v'),
    ('\\', '\\'), ('"', '"')]

def escapeChar (char : Char) : List Char :=
  match letterEscapes.lookup char with
  | some letter => ['\\', letter]
  | none =>
    if isVisible char then [char]
    else if char.toNat < 0x80 then '\\' :: 'x' :: hexDigits 2 char.toNat
    else if char.toNat < 0x10000 then '\\' :: 'u' :: hexDigits 4 char.toNat
    else '\\' :: 'U' :: hexDigits 8 char.toNat

def quoted (text : String) : String :=
  String.ofList ('"' :: text.toList.flatMap escapeChar ++ ['"'])

end Analog.Text
