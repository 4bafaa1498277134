/-!
# Blank characters

The white space of the Unicode standard. ASCII contributes the tabulators, line
ends, form feed and the space.
-/

set_option autoImplicit false

namespace Analog.Text

def wideBlanks : List Nat :=
  [0x85, 0xA0, 0x1680] ++ (List.range 11).map (0x2000 + ·) ++ [0x2028, 0x2029, 0x202F, 0x205F, 0x3000]

def isBlank (char : Char) : Bool :=
  char == ' ' || (decide (9 ≤ char.toNat) && decide (char.toNat ≤ 13)) ||
    (decide (128 ≤ char.toNat) && wideBlanks.contains char.toNat)

def trim (text : String) : String :=
  String.ofList (((text.toList.dropWhile isBlank).reverse.dropWhile isBlank).reverse)

end Analog.Text
