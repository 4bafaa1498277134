import Analog.Command.Flags

/-!
# Commands and their help

The commands of the program, the flags that each one takes, and the texts that explain
them.
-/

set_option autoImplicit false

namespace Analog.Command

/-- What can be asked for on the command line. -/
inductive Verb where
  | root
  | check
  | canonical
  | compile
  deriving DecidableEq

namespace Verb

def ofName? (name : String) : Option Verb :=
  if name = "check" then some check
  else if name = "canonical" then some canonical
  else if name = "compile" then some compile
  else none

def commonFlags : List Flag :=
  [{ name := "verbose", letter := some 'v', kind := .switch }, { name := "width", kind := .number }]

def helpFlag : Flag := { name := "help", letter := some 'h', kind := .switch }

def setFlag : Flag := { name := "set", letter := some 'S', kind := .text }

def ownFlags : Verb → List Flag
  | root => [{ name := "version", kind := .switch }]
  | check => [setFlag]
  | canonical => [{ name := "pad", kind := .switch }, setFlag]
  | compile =>
    [{ name := "max-cell-width", kind := .number }, { name := "no-ansi", kind := .switch },
      { name := "sexp", kind := .switch }]

def flags (verb : Verb) : List Flag := helpFlag :: (verb.ownFlags ++ commonFlags)

def description : Verb → String
  | root =>
    "A compiler (and general toolbox) for analog circuits, which lowers\n\twaveform programs into " ++
      "breakpoint series for neutral-atom devices."
  | check =>
    "Check a given circuit, reporting its variables and channels.  When\n\tevery variable is " ++
      "assigned (e.g. on the command line), the circuit is also\n\tcompiled to check every channel " ++
      "can be lowered."
  | canonical =>
    "Print the canonical form of a given circuit, after first assigning any\n\tvariables defined " ++
      "on the command line."
  | compile =>
    "Compile every batch of a given job into breakpoint series, one per\n\tchannel.  Any trailing " ++
      "arguments give the values of the job's run-time\n\targuments, in order."

def lines (texts : List String) : String :=
  String.join (texts.map (· ++ "\n"))

def globalUsage : List String :=
  ["Global Flags:",
    "  -v, --verbose      increase logging verbosity",
    "      --width uint   set maximum width of printed output (default 80)"]

def usage : Verb → String
  | root => lines
    ["Usage:",
      "  go-analog [flags]",
      "  go-analog [command]",
      "",
      "Available Commands:",
      "  canonical   print the canonical form of a circuit.",
      "  check       check a circuit can be compiled.",
      "  compile     compile a job into breakpoint series.",
      "  completion  Generate the autocompletion script for the specified shell",
      "  help        Help about any command",
      "",
      "Flags:",
      "  -h, --help         help for go-analog",
      "  -v, --verbose      increase logging verbosity",
      "      --version      Report version of this executable",
      "      --width uint   set maximum width of printed output (default 80)",
      "",
      "Use \"go-analog [command] --help\" for more information about a command."]
  | check => lines (
    ["Usage:",
      "  go-analog check [flags] circuit_file",
      "",
      "Flags:",
      "  -h, --help              help for check",
      "  -S, --set stringArray   assign a variable (name=value or name=v1,v2,..).",
      ""] ++ globalUsage)
  | canonical => lines (
    ["Usage:",
      "  go-analog canonical [flags] circuit_file",
      "",
      "Flags:",
      "  -h, --help              help for canonical",
      "      --pad               pad every channel to the duration of its sequence",
      "  -S, --set stringArray   assign a variable (name=value or name=v1,v2,..).",
      ""] ++ globalUsage)
  | compile => lines (
    ["Usage:",
      "  go-analog compile [flags] job_file [arg...]",
      "",
      "Flags:",
      "  -h, --help                  help for compile",
      "      --max-cell-width uint   set maximum width of any table cell (default 16)",
      "      --no-ansi               disable ANSI escapes",
      "      --sexp                  print tasks in their tagged form",
      ""] ++ globalUsage)

def help (verb : Verb) : String := verb.description ++ "\n\n" ++ verb.usage

end Verb

/-- What a command line asks for: a command with the arguments left for it, help, or something
unknown. -/
inductive Request where
  | run (verb : Verb) (arguments : List String)
  | help (topic : List String)
  | unknown

/-- Whether an argument is a flag whose value is the next argument. A flag that is not known counts
as one. -/
def takesNext (argument : String) : Bool :=
  let known := Verb.ownFlags .root ++ Verb.commonFlags
  match argument.toList with
  | '-' :: '-' :: name =>
    !name.contains '=' && !(Flag.find? known (String.ofList name)).any (·.isSwitch)
  | ['-', letter] => letter != '=' && !(Flag.findLetter? known letter).any (·.isSwitch)
  | _ => false

/-- The first argument that is neither a flag nor the value of one. A flag at the end takes no
value. -/
def firstWord? : List String → Option String
  | [] => none
  | argument :: rest =>
    if argument = "--" then none
    else if takesNext argument then
      match rest with
      | [] => none
      | [_] => none
      | _ :: others => firstWord? others
    else if argument != "" && !argument.startsWith "-" then some argument
    else firstWord? rest

/-- The arguments without the first one that is the given word and not the value of a flag. -/
def withoutWord (word : String) : List String → List String
  | [] => []
  | argument :: rest =>
    if argument = "--" then argument :: rest
    else if takesNext argument then
      match rest with
      | [] => [argument]
      | value :: others => argument :: value :: withoutWord word others
    else if argument = word then rest
    else argument :: withoutWord word rest

def request (arguments : List String) : Request :=
  match firstWord? arguments with
  | none => .run .root arguments
  | some word =>
    match Verb.ofName? word with
    | some verb => .run verb (withoutWord word arguments)
    | none => if word = "help" then .help (withoutWord word arguments) else .unknown

end Analog.Command
