/-!
# Maps from names

A map from names to values, held as a list in increasing order of names without
repetition. Names are ordered by their characters.
-/

set_option autoImplicit false

namespace Analog

structure NameMap (α : Type) where
  entries : List (String × α)

namespace NameMap

variable {α : Type}

def empty : NameMap α := ⟨[]⟩

instance : Inhabited (NameMap α) := ⟨empty⟩

def find? (map : NameMap α) (name : String) : Option α :=
  map.entries.lookup name

def contains (map : NameMap α) (name : String) : Bool :=
  (map.find? name).isSome

/-- Puts an entry in its place; an entry of the same name is replaced. -/
def place (name : String) (value : α) : List (String × α) → List (String × α)
  | [] => [(name, value)]
  | entry :: rest =>
    if name = entry.1 then (name, value) :: rest
    else if name < entry.1 then (name, value) :: entry :: rest
    else entry :: place name value rest

def insert (map : NameMap α) (name : String) (value : α) : NameMap α :=
  ⟨place name value map.entries⟩

def ofList (entries : List (String × α)) : NameMap α :=
  entries.foldl (fun map entry => map.insert entry.1 entry.2) empty

def names (map : NameMap α) : List String :=
  map.entries.map Prod.fst

def size (map : NameMap α) : Nat := map.entries.length

end NameMap

end Analog
