import Analog.Command

/-!
# The command line

Runs a command on the files of the disk and writes what it has to say.
-/

set_option autoImplicit false

namespace Analog

/-- Reads a file of the disk. What cannot be read for any other reason counts as absent. -/
def readDisk : FileReader IO := fun path => do
  try
    let text ← IO.FS.readFile path
    return .ok text
  catch error =>
    match error with
    | .inappropriateType .. => return .error (.isDirectory path)
    | _ => return .error (.notFound path)

end Analog

def main (arguments : List String) : IO UInt32 := do
  let output ← IO.getStdout
  let terminal ← output.isTty
  let ending ← Analog.Command.run Analog.readDisk terminal arguments
  output.putStr ending.output
  output.flush
  return UInt32.ofNat ending.status
