import Analog.Term

/-!
# Reading terms

Reading has two steps. The text is first cut into brackets and symbols, each with its
position; blanks and comments, which run from a semicolon to the end of the line,
disappear here. The brackets are then matched, with a stack of the lists and arrays
that are still open.
-/

set_option autoImplicit false

namespace Analog

open Text

/-- What opens and closes a sequence of terms. -/
inductive Bracket where
  | round
  | square
  deriving DecidableEq

/-- A bracket or a symbol, with its place in the text. -/
inductive Token where
  | opening (bracket : Bracket) (position : Nat)
  | closing (bracket : Bracket) (position : Nat)
  | symbol (span : Span) (name : String)

namespace Token

def start : Token → Nat
  | .opening _ position => position
  | .closing _ position => position
  | .symbol span _ => span.start

/-- What the character before the current one belongs to. A symbol under way keeps its
characters in reverse. -/
inductive Mode where
  | blank
  | comment
  | symbol (start : Nat) (reversed : List Char)

/-- The symbol that ends at a position, if one is under way. -/
def Mode.finish (mode : Mode) (position : Nat) : List Token :=
  match mode with
  | .symbol start reversed => [.symbol ⟨start, position⟩ (String.ofList reversed.reverse)]
  | _ => []

def bracket? (char : Char) (position : Nat) : Option Token :=
  if char = '(' then some (.opening .round position)
  else if char = ')' then some (.closing .round position)
  else if char = '[' then some (.opening .square position)
  else if char = ']' then some (.closing .square position)
  else none

def scanFrom (mode : Mode) (position : Nat) : List Char → List Token
  | [] => mode.finish position
  | char :: rest =>
    match mode with
    | .comment => scanFrom (if char = '\n' then .blank else .comment) (position + 1) rest
    | _ =>
      if char = ';' then mode.finish position ++ scanFrom .comment (position + 1) rest
      else if isBlank char then mode.finish position ++ scanFrom .blank (position + 1) rest
      else
        match bracket? char position, mode with
        | some token, _ => mode.finish position ++ token :: scanFrom .blank (position + 1) rest
        | none, .symbol start reversed =>
          scanFrom (.symbol start (char :: reversed)) (position + 1) rest
        | none, _ => scanFrom (.symbol position [char]) (position + 1) rest

def scan (text : String) : List Token :=
  scanFrom .blank 0 text.toList

end Token

namespace LocatedTerm

/-- A list or array that is still open; its elements so far are in reverse. -/
structure Frame where
  start : Nat
  bracket : Bracket
  reversed : List LocatedTerm

/-- The finished term of a frame whose closing bracket ends at `stop`. -/
def Frame.close (frame : Frame) (stop : Nat) : LocatedTerm :=
  match frame.bracket with
  | .round => .list ⟨frame.start, stop⟩ frame.reversed.reverse
  | .square => .array ⟨frame.start, stop⟩ frame.reversed.reverse

/-- A position and a complaint about the character there. -/
structure Fault where
  position : Nat
  complaint : String

/-- The effect of one token: either some frames are still open, or a term is complete. -/
inductive Progress where
  | pending (frames : List Frame)
  | complete (term : LocatedTerm)

def deliver (term : LocatedTerm) : List Frame → Progress
  | [] => .complete term
  | frame :: outer => .pending ({ frame with reversed := term :: frame.reversed } :: outer)

def unexpectedClosing : Bracket → String
  | .round => "unexpected end-of-list"
  | .square => "unexpected end-of-array"

def feed (frames : List Frame) : Token → Except Fault Progress
  | .opening bracket position => .ok (.pending (⟨position, bracket, []⟩ :: frames))
  | .symbol span name => .ok (deliver (.symbol span name) frames)
  | .closing bracket position =>
    match frames with
    | [] => .error ⟨position, unexpectedClosing bracket⟩
    | frame :: outer =>
      if frame.bracket = bracket then .ok (deliver (frame.close (position + 1)) outer)
      else .error ⟨position, unexpectedClosing bracket⟩

/-- The complaint when the text ends inside a list or array: its last character is named. -/
def unfinished (textLength : Nat) : Fault :=
  ⟨textLength - 1, "unexpected end-of-file"⟩

/-- Reads one term, and returns the tokens after it. Without tokens there is no term. -/
def readNext (textLength : Nat) (frames : List Frame) :
    List Token → Except Fault (Option (LocatedTerm × List Token))
  | [] => if frames.isEmpty then .ok none else .error (unfinished textLength)
  | token :: rest =>
    match feed frames token with
    | .error fault => .error fault
    | .ok (.complete term) => .ok (some (term, rest))
    | .ok (.pending frames) => readNext textLength frames rest

/-- Reads terms to the end, and returns those read before the first fault. -/
def readRest (textLength : Nat) (frames : List Frame) (reversed : List LocatedTerm) :
    List Token → List LocatedTerm × Option Fault
  | [] => (reversed.reverse, if frames.isEmpty then none else some (unfinished textLength))
  | token :: rest =>
    match feed frames token with
    | .error fault => (reversed.reverse, some fault)
    | .ok (.complete term) => readRest textLength [] (term :: reversed) rest
    | .ok (.pending frames) => readRest textLength frames reversed rest

def Fault.toError (fault : Fault) (source : Source) : SyntaxError :=
  ⟨source, ⟨fault.position, min (fault.position + 1) source.text.length⟩, fault.complaint⟩

def parse (source : Source) : Except SyntaxError (Option LocatedTerm) :=
  match readNext source.text.length [] (Token.scan source.text) with
  | .error fault => .error (fault.toError source)
  | .ok none => .ok none
  | .ok (some (term, [])) => .ok (some term)
  | .ok (some (_, token :: _)) =>
    .error (Fault.toError ⟨token.start, "unexpected remainder"⟩ source)

def parseAll (source : Source) : List LocatedTerm × Option SyntaxError :=
  let (terms, fault) := readRest source.text.length [] [] (Token.scan source.text)
  (terms, fault.map (·.toError source))

end LocatedTerm

end Analog
