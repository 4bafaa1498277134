import Analog.Failure

/-!
# Files

Paths, and a directory of files that is held in memory. Whoever reads files is handed a
reader, so that the same work can be done on a disk and without one.
-/

set_option autoImplicit false

namespace Analog

namespace Path

def isAbsolute (path : String) : Bool := path.startsWith "/"

/-- Removes empty names and single dots, and lets double dots cancel the name before them. The
names kept come in reverse. -/
def reduce (absolute : Bool) : (kept names : List String) → List String
  | kept, [] => kept
  | kept, name :: rest =>
    if name = "" || name = "." then reduce absolute kept rest
    else if name = ".." then
      match kept with
      | last :: others =>
        if last = ".." then reduce absolute (name :: kept) rest else reduce absolute others rest
      | [] => if absolute then reduce absolute [] rest else reduce absolute [name] rest
    else reduce absolute (name :: kept) rest

/-- The shortest path with the same meaning, as far as names can tell. -/
def clean (path : String) : String :=
  let absolute := isAbsolute path
  let body := "/".intercalate (reduce absolute [] (path.splitOn "/")).reverse
  if absolute then "/" ++ body else if body = "" then "." else body

def directory (path : String) : String :=
  let names := (path.splitOn "/").dropLast
  if names.isEmpty then clean "" else clean ("/".intercalate names ++ "/")

def join (base path : String) : String :=
  if base = "" then (if path = "" then "" else clean path) else clean (base ++ "/" ++ path)

end Path

abbrev FileReader (m : Type → Type) := (path : String) → m (Except FileError String)

/-- Files held in memory, with their paths. -/
structure Files where
  entries : List (String × String)

namespace Files

def hasDirectory (files : Files) (path : String) : Bool :=
  files.entries.any fun entry => entry.1.startsWith (path ++ "/")

/-- Follows the names of a path, those passed so far in reverse. -/
def follow (files : Files) (asked : String) :
    (passed names : List String) → Except FileError String
  | _, [] => .error (.isDirectory asked)
  | passed, name :: rest =>
    if name = "" || name = "." then follow files asked passed rest
    else if name = ".." then
      match passed with
      | [] => .error (.notFound asked)
      | _ :: others => follow files asked others rest
    else
      let path := "/".intercalate (name :: passed).reverse
      match files.entries.lookup path with
      | some text => if rest.isEmpty then .ok text else .error (.notDirectory asked)
      | none =>
        if files.hasDirectory path then follow files asked (name :: passed) rest
        else .error (.notFound asked)

def read (files : Files) (path : String) : Except FileError String :=
  if path = "" || Path.isAbsolute path then .error (.notFound path)
  else files.follow path [] (path.splitOn "/")

end Files

end Analog
