import Analog.Document.Reader
import Analog.Files
import Analog.Tagged.Reader
import Analog.Task

/-!
# Jobs

A job file names a program, the values of its variables, the device to compile for and,
if the register is to be tiled, the spacing of its copies. Paths in a job are seen from
the directory in which the job file lies.
-/

set_option autoImplicit false

namespace Analog

namespace Device

open Document

def readRange (range : PermittedRange) (name : String) (value : Document) :
    Decoding PermittedRange :=
  match name with
  | "min" => do return { range with lower := (← number? value).getD range.lower }
  | "max" => do return { range with upper := (← number? value).getD range.upper }
  | _ => misfit range

def readLimits (limits : PerField PermittedRange) (name : String) (value : Document) :
    Decoding (PerField PermittedRange) :=
  match name with
  | "rabi_amplitude" => do return { limits with rabiAmplitude := (← record? readRange {} value) }
  | "detuning" => do return { limits with detuning := (← record? readRange {} value) }
  | "phase" => do return { limits with rabiPhase := (← record? readRange {} value) }
  | _ => misfit limits

def readArea (area : Area) (name : String) (value : Document) : Decoding Area :=
  match name with
  | "width" => do return { area with width := (← number? value).getD area.width }
  | "height" => do return { area with height := (← number? value).getD area.height }
  | _ => misfit area

def readEntry (device : Device) (name : String) (value : Document) : Decoding Device :=
  match name with
  | "max_time" => do return { device with maxTime := (← number? value) }
  | "rydberg" => do
    let limits ← record? readLimits .empty value
    return { device with limits := { device.limits with rydberg := limits } }
  | "hyperfine" => do
    let limits ← record? readLimits .empty value
    return { device with limits := { device.limits with hyperfine := limits } }
  | "area" => do return { device with area := (← record? readArea {} value) }
  | _ => misfit device

def ofDocument (document : Document) : Outcome Device :=
  decode (entries readEntry {}) document

end Device

structure Job where
  /-- The program itself, or the path of a file that holds it. -/
  program : String := ""
  static : Bindings := .empty
  batches : List Bindings := []
  arguments : List String := []
  /-- The path of a file that describes the device. -/
  device : String := ""
  /-- The spacing of copies, if the register is to be tiled. -/
  spacing : Option Decimal := none
  /-- The directory from which paths are seen. -/
  directory : String := ""

namespace Job

open Document

/-- Reads the value of a variable: a number, or a list of numbers for a vector. -/
def readParameter (bindings : Bindings) (name : String) (value : Document) : Decoding Bindings :=
  match value with
  | .mapping line _ => throw (.expectedNumbers line)
  | .list _ _ => do
    let numbers ← items number? value
    return { bindings with vectors := bindings.vectors.insert name numbers }
  | .text _ => do
    match ← number? value with
    | some number => return { bindings with scalars := bindings.scalars.insert name number }
    | none => return { bindings with vectors := bindings.vectors.insert name [] }

def readParameters (document : Document) : Decoding Bindings :=
  entries readParameter .empty document

def readEntry (job : Job) (name : String) (value : Document) : Decoding Job :=
  match name with
  | "program" => do return { job with program := (← text? value).getD "" }
  | "static_params" => do return { job with static := (← readParameters value) }
  | "batch_params" => do
    let batches ← items (fun item => some <$> readParameters item) value
    return { job with batches }
  | "args" => do return { job with arguments := (← items text? value) }
  | "capabilities" => do return { job with device := (← text? value).getD "" }
  | "cluster_spacing" => do return { job with spacing := (← number? value) }
  | _ => misfit job

def ofDocument (document : Document) : Outcome Job :=
  decode (entries readEntry {}) document

variable {m : Type → Type} [Monad m]

def loadDocument {α : Type} (reader : FileReader m) (decode : Document → Outcome α)
    (path : String) : m (Outcome α) := do
  match ← reader path with
  | .error error => return .error (.within ("reading " ++ path) (.unreadable error))
  | .ok content =>
    return Outcome.inContext ("parsing " ++ path) do
      let document ← Document.parse content
      decode document

def load (reader : FileReader m) (path : String) : m (Outcome Job) := do
  match ← loadDocument reader ofDocument path with
  | .error failure => return .error failure
  | .ok job =>
    if job.program = "" then return .error (.noProgram path)
    else return .ok { job with directory := Path.directory path }

def resolve (job : Job) (path : String) : String :=
  if Path.isAbsolute path || job.directory = "" then path else Path.join job.directory path

/-- Loads the device of a job; without one nothing is limited. -/
def loadDevice (reader : FileReader m) (job : Job) : m (Outcome Device) :=
  if job.device = "" then return .ok {}
  else loadDocument reader Device.ofDocument (job.resolve job.device)

/-- The name under which a program is known that stands in the job itself. -/
def inlineProgram : String := "<program>"

/-- A program that begins with a bracket stands in the job itself. -/
def isInline (job : Job) : Bool := (Text.trim job.program).startsWith "("

def loadProgram (reader : FileReader m) (job : Job) : m (Outcome Text.Source) := do
  if job.isInline then return .ok ⟨inlineProgram, job.program⟩
  else
    let path := job.resolve job.program
    match ← reader path with
    | .error error => return .error (.within "reading program" (.unreadable error))
    | .ok content => return .ok ⟨path, content⟩

/-- The routine that a program makes with the parameters of a job. -/
def assemble (device : Device) (job : Job) (source : Text.Source) : Outcome Routine := do
  let circuit ← Tagged.readCircuit source
  let placed ← match job.spacing with
    | some spacing => device.tile spacing circuit
    | none => pure circuit
  Routine.check
    { circuit := placed, static := job.static, batches := job.batches,
      arguments := job.arguments }

def loadRoutine (reader : FileReader m) (device : Device) (job : Job) : m (Outcome Routine) := do
  match ← job.loadProgram reader with
  | .error failure => return .error failure
  | .ok source => return job.assemble device source

end Job

end Analog
