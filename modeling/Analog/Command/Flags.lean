/-!
# Flags

Flags on a command line have a long name and perhaps a letter. A switch stands by itself,
other flags take a value: after an equals sign, after their letter, or as the next
argument. Flags and other arguments may be mixed, and a double dash ends the flags.
-/

set_option autoImplicit false

namespace Analog.Command

inductive FlagKind where
  | switch
  | number
  | text
  deriving DecidableEq

structure Flag where
  name : String
  letter : Option Char := none
  kind : FlagKind

namespace Flag

def find? (flags : List Flag) (name : String) : Option Flag :=
  flags.find? (·.name == name)

def findLetter? (flags : List Flag) (letter : Char) : Option Flag :=
  flags.find? (·.letter == some letter)

def isSwitch (flag : Flag) : Bool := flag.kind = .switch

end Flag

def switchValue? (text : String) : Option Bool :=
  if ["1", "t", "T", "TRUE", "true", "True"].contains text then some true
  else if ["0", "f", "F", "FALSE", "false", "False"].contains text then some false
  else none

def digit? (char : Char) : Option Nat :=
  if '0' ≤ char && char ≤ '9' then some (char.toNat - '0'.toNat)
  else if 'a' ≤ char && char ≤ 'z' then some (char.toNat - 'a'.toNat + 10)
  else if 'A' ≤ char && char ≤ 'Z' then some (char.toNat - 'A'.toNat + 10)
  else none

/-- The value of digits, of which there must be at least one. -/
def digitsValue? (base : Nat) (digits : List Char) : Option Nat :=
  if digits.isEmpty then none
  else
    digits.foldlM (fun value char => do
      let digit ← digit? char
      if digit < base then some (value * base + digit) else none) 0

/-- Whether underscores only stand between digits; `separable` tells if one may come first. -/
def wellSeparated : (separable : Bool) → List Char → Bool
  | _, [] => true
  | separable, '_' :: rest =>
    separable && !rest.isEmpty && rest.head? != some '_' && wellSeparated false rest
  | _, _ :: rest => wellSeparated true rest

/-- The base of a number and its digits, and whether the base is marked. -/
def splitBase : List Char → Nat × Bool × List Char
  | '0' :: mark :: rest =>
    if mark = 'x' || mark = 'X' then (16, true, rest)
    else if mark = 'b' || mark = 'B' then (2, true, rest)
    else if mark = 'o' || mark = 'O' then (8, true, rest)
    else (8, true, mark :: rest)
  | digits => (10, false, digits)

def numberLimit : Nat := 18446744073709551615

/-- A number of 64 bits in any of the usual bases. Underscores may stand between digits. -/
def numberValue? (text : String) : Option Nat := do
  let (base, marked, digits) := splitBase text.toList
  if wellSeparated marked digits then
    let value ← digitsValue? base (digits.filter (· != '_'))
    if value ≤ numberLimit then some value else none
  else none

/-- What a command line says: flags with their values, in order, and the other arguments. -/
structure Arguments where
  values : List (String × String) := []
  others : List String := []

namespace Arguments

/-- The last value of a switch; a switch that is not given is off. -/
def switch (arguments : Arguments) (name : String) : Bool :=
  ((arguments.values.reverse.lookup name).bind switchValue?).getD false

def number (arguments : Arguments) (name : String) (fallback : Nat) : Nat :=
  ((arguments.values.reverse.lookup name).bind numberValue?).getD fallback

def texts (arguments : Arguments) (name : String) : List String :=
  (arguments.values.filter (·.1 == name)).map Prod.snd

def add? (arguments : Arguments) (flag : Flag) (value : String) : Option Arguments :=
  let valid := match flag.kind with
    | .switch => (switchValue? value).isSome
    | .number => (numberValue? value).isSome
    | .text => true
  if valid then some { arguments with values := arguments.values ++ [(flag.name, value)] } else none

def addOther (arguments : Arguments) (argument : String) : Arguments :=
  { arguments with others := arguments.others ++ [argument] }

end Arguments

def splitValue (text : List Char) : List Char × Option (List Char) :=
  match text.dropWhile (· != '=') with
  | [] => (text, none)
  | _ :: value => (text.takeWhile (· != '='), some value)

/-- The arguments read so far, and the flag whose value comes next, if one does. -/
structure Progress where
  arguments : Arguments
  waiting : Option Flag := none

def readLong (flags : List Flag) (arguments : Arguments) (text : List Char) : Option Progress :=
  match text with
  | [] => none
  | first :: _ =>
    if first = '-' || first = '=' then none
    else do
      let (name, given) := splitValue text
      let flag ← Flag.find? flags (String.ofList name)
      match given with
      | some value =>
        let extended ← arguments.add? flag (String.ofList value)
        return { arguments := extended }
      | none =>
        if flag.isSwitch then
          let extended ← arguments.add? flag "true"
          return { arguments := extended }
        else return { arguments, waiting := some flag }

def readLetters (flags : List Flag) (arguments : Arguments) : List Char → Option Progress
  | [] => some { arguments }
  | letter :: rest => do
    let flag ← Flag.findLetter? flags letter
    if 2 ≤ rest.length && rest.head? = some '=' then
      let extended ← arguments.add? flag (String.ofList (rest.drop 1))
      return { arguments := extended }
    else if flag.isSwitch then
      let extended ← arguments.add? flag "true"
      readLetters flags extended rest
    else if rest.isEmpty then return { arguments, waiting := some flag }
    else
      let extended ← arguments.add? flag (String.ofList rest)
      return { arguments := extended }

def readArgument (flags : List Flag) (arguments : Arguments) (argument : String) :
    Option Progress :=
  match argument.toList with
  | '-' :: '-' :: text => readLong flags arguments text
  | '-' :: letter :: letters => readLetters flags arguments (letter :: letters)
  | _ => some { arguments := arguments.addOther argument }

/-- Reads a command line. It cannot be read if a flag is unknown or lacks a proper value. -/
def readArguments (flags : List Flag) (progress : Progress) : List String → Option Arguments
  | [] => if progress.waiting.isNone then some progress.arguments else none
  | argument :: rest =>
    match progress.waiting with
    | some flag => do
      let extended ← progress.arguments.add? flag argument
      readArguments flags { arguments := extended } rest
    | none =>
      if argument = "--" then
        some { progress.arguments with others := progress.arguments.others ++ rest }
      else do
        let next ← readArgument flags progress.arguments argument
        readArguments flags next rest

end Analog.Command
