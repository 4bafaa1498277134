import Analog.Command.Usage
import Analog.Job
import Analog.Report.Task
import Analog.Term.Layout
import Analog.Waveform.Builtin

/-!
# The command line

What the program writes and how it ends, for every command line. Files are read through a
reader, so that nothing here depends on where they lie. A failure ends a command with
status one, a file or an argument that cannot be read with status two, as does an abort.
-/

set_option autoImplicit false

namespace Analog.Command

/-- How a command ended, and all it wrote. -/
structure Ending where
  status : Nat
  output : String

variable {m : Type → Type} [Monad m]

/-- Work of a command: it writes, and may end early with a status. -/
abbrev Session (m : Type → Type) := ExceptT Nat (StateT String m)

def say (text : String) : Session m Unit :=
  modify (· ++ text)

def sayLine (text : String) : Session m Unit :=
  say (text ++ "\n")

def finish {α : Type} (status : Nat) : Session m α :=
  throw status

/-- Writes a failure: a complaint about a text shows the place. -/
def sayFailure (failure : Failure) : Session m Unit :=
  match failure.syntaxError? with
  | some error => sayLine error.highlight
  | none => sayLine failure.message

/-- Ends the command with a failure. An abort says nothing. -/
def fail {α : Type} (status : Nat) (failure : Failure) : Session m α := do
  if failure.abort?.isSome then finish 2
  else
    sayFailure failure
    finish status

/-- The result of some work; its failure ends the command. -/
def demand {α : Type} (status : Nat) (outcome : Outcome α) : Session m α :=
  match outcome with
  | .ok value => pure value
  | .error failure => fail status failure

def showUsage {α : Type} (verb : Verb) : Session m α := do
  sayLine verb.usage
  finish 1

def perform {α : Type} (work : m α) : Session m α :=
  ExceptT.lift (StateT.lift work)

def numbers (texts : List String) : Session m (List Decimal) :=
  texts.mapM fun text =>
    match Decimal.ofText (Text.trim text) with
    | .ok value => pure value
    | .error _ => do
      sayLine ("invalid number \"" ++ text ++ "\"")
      finish 2

/-- Adds a definition: a name, an equals sign, and a number or several with commas between
them. -/
def addDefinition (bindings : Bindings) (definition : String) : Session m Bindings := do
  match splitValue definition.toList with
  | (_ :: _, some value) =>
    let name := String.ofList (definition.toList.takeWhile (· != '='))
    let values ← numbers ((String.ofList value).splitOn ",")
    match values with
    | [number] => return { bindings with scalars := bindings.scalars.insert name number }
    | several => return { bindings with vectors := bindings.vectors.insert name several }
  | _ =>
    sayLine ("malformed definition \"" ++ definition ++ "\"")
    finish 2

def definitions (texts : List String) : Session m Bindings :=
  texts.foldlM addDefinition .empty

def readCircuit (reader : FileReader m) (path : String) : Session m Circuit := do
  match ← perform (reader path) with
  | .error error =>
    sayLine error.message
    finish 2
  | .ok content => demand 1 (Tagged.readCircuit ⟨path, content⟩)

def list (title : String) (names : List String) : Session m Unit :=
  if names.isEmpty then pure () else sayLine (title ++ ": " ++ ", ".intercalate names)

/-- Reports on a circuit, and compiles it if nothing is missing. -/
def check (reader : FileReader m) (arguments : Arguments) : Session m Unit := do
  match arguments.others with
  | [path] =>
    let circuit ← readCircuit reader path
    let bindings ← definitions (arguments.texts "set")
    let used := circuit.sequence.uses.distinct
    list "scalars" used.free
    list "vectors" used.vectors
    list "recorded" used.recorded
    list "channels" (circuit.sequence.channels.map Channel.text)
    sayLine ("duration: " ++ circuit.sequence.symbolicDuration.text)
    let missing := (used.free ++ used.vectors).filter fun name => !bindings.has name
    if !missing.isEmpty then
      sayLine ("skipping lowering (unassigned: " ++ ", ".intercalate missing ++ ")")
    else
      let tasks : Outcome (List Task) := do
        let routine ← Routine.check { circuit, static := bindings }
        routine.compile {} []
      match tasks with
      | .ok _ => sayLine "ok"
      | .error failure =>
        if failure.abort?.isSome then finish 2
        else
          say ("failed (" ++ failure.kind.name ++ "): ")
          fail 1 failure
  | _ => showUsage .check

/-- Assigns bindings, if there are any, and brings a circuit into canonical form, with all its
channels padded on demand. -/
def canonicalise (bindings : Bindings) (padded : Bool) (circuit : Circuit) : Outcome Circuit := do
  let assigned ← if bindings.size = 0 then pure circuit else circuit.assign bindings
  let canonical ← Canonical.afresh (Canonical.circuit assigned)
  if padded then
    let sequence ← canonical.sequence.pad bindings.scalars
    Canonical.afresh (Canonical.circuit { canonical with sequence })
  else return canonical

def width (arguments : Arguments) : Nat := arguments.number "width" 80

def canonical (reader : FileReader m) (arguments : Arguments) : Session m Unit := do
  match arguments.others with
  | [path] =>
    let circuit ← readCircuit reader path
    let bindings ← definitions (arguments.texts "set")
    let result ← demand 1 (canonicalise bindings (arguments.switch "pad") circuit)
    let term ← demand 1 result.write
    sayLine (term.layout (width arguments))
  | _ => showUsage .canonical

/-- Writes a report; one that ends early ends the command. -/
def sayReport (report : Report) : Session m Unit := do
  say report.text
  match report.failure with
  | none => pure ()
  | some failure => fail 1 failure

def compile (reader : FileReader m) (terminal : Bool) (arguments : Arguments) :
    Session m Unit := do
  match arguments.others with
  | path :: values =>
    let loaded ← perform (Job.load reader path)
    let job ← demand 2 loaded
    let loadedDevice ← perform (job.loadDevice reader)
    let device ← demand 2 loadedDevice
    let loadedRoutine ← perform (job.loadRoutine reader device)
    let routine ← demand 1 loadedRoutine
    let inputs ← numbers values
    let tasks ← demand 1 (routine.compile device inputs)
    let style : Task.Style :=
      { maxCellWidth := some (arguments.number "max-cell-width" 16)
        escapes := terminal && !arguments.switch "no-ansi" }
    tasks.forM fun task =>
      if arguments.switch "sexp" then sayLine (task.toTerm.layout (width arguments))
      else sayReport (task.report style)
  | [] => showUsage .compile

def version : String := "(unknown version)"

def execute (reader : FileReader m) (terminal : Bool) (verb : Verb) (texts : List String) :
    Session m Unit := do
  match readArguments verb.flags { arguments := {} } texts with
  | none => finish 1
  | some arguments =>
    if arguments.switch "help" then say verb.help
    else
      match verb with
      | .root =>
        if arguments.switch "version" then sayLine ("go-analog " ++ version)
        else sayLine verb.usage
      | .check => check reader arguments
      | .canonical => canonical reader arguments
      | .compile => compile reader terminal arguments

def serve (reader : FileReader m) (terminal : Bool) (texts : List String) : Session m Unit :=
  match request texts with
  | .run verb arguments => execute reader terminal verb arguments
  | .help topic =>
    match request topic with
    | .run verb _ => say verb.help
    | _ => pure ()
  | .unknown => finish 1

/-- What the program writes for a command line, and the status with which it ends. -/
def run (reader : FileReader m) (terminal : Bool) (texts : List String) : m Ending := do
  let (result, output) ← (serve reader terminal texts).run.run ""
  match result with
  | .ok _ => return ⟨0, output⟩
  | .error status => return ⟨status, output⟩

end Analog.Command
