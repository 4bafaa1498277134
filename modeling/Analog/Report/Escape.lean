/-!
# Terminal escapes

Sequences that change how a terminal shows the text after them, made of a list of codes.
-/

set_option autoImplicit false

namespace Analog

/-- The codes of an escape sequence. -/
structure Escape where
  codes : List Nat

namespace Escape

def plain : Escape := ⟨[]⟩

def reset : Escape := ⟨[0]⟩

def bold : Escape := ⟨[1]⟩

def foreground (escape : Escape) (colour : Nat) : Escape := ⟨escape.codes ++ [colour + 30]⟩

def background (escape : Escape) (colour : Nat) : Escape := ⟨escape.codes ++ [colour + 40]⟩

def green : Nat := 2

def blue : Nat := 4

def text (escape : Escape) : String :=
  let codes := ";".intercalate (escape.codes.map toString)
  if escape.codes.isEmpty then "\x1bm" else "\x1b[" ++ codes ++ "m"

end Escape

end Analog
