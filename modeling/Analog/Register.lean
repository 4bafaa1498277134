import Analog.Failure
import Analog.Fingerprint

/-!
# Registers

A register is an ordered list of sites in the plane. A site holds an atom or is left
vacant.
-/

set_option autoImplicit false

namespace Analog

structure Position where
  x : Decimal
  y : Decimal
  deriving DecidableEq

namespace Position

def origin : Position := ⟨0, 0⟩

def shift (position offset : Position) : Position :=
  ⟨position.x + offset.x, position.y + offset.y⟩

def text (position : Position) : String :=
  "(" ++ position.x.toText ++ "," ++ position.y.toText ++ ")"

def lower (first second : Position) : Position :=
  ⟨min first.x second.x, min first.y second.y⟩

def upper (first second : Position) : Position :=
  ⟨max first.x second.x, max first.y second.y⟩

end Position

structure Site where
  position : Position
  filled : Bool
  deriving DecidableEq

structure Register where
  sites : List Site
  deriving DecidableEq

namespace Register

def ofPositions (positions : List Position) : Register :=
  ⟨positions.map (⟨·, true⟩)⟩

def chain (count : Nat) (spacing : Decimal) : Register :=
  ofPositions ((List.range count).map fun (index : Nat) => ⟨spacing * Decimal.ofInt index, 0⟩)

def square (side : Nat) (spacing : Decimal) : Register :=
  ofPositions ((List.range side).flatMap fun (row : Nat) =>
    (List.range side).map fun (column : Nat) =>
      ⟨spacing * Decimal.ofInt column, spacing * Decimal.ofInt row⟩)

def size (register : Register) : Nat := register.sites.length

def vacateOne (register : Register) (index : Nat) : Outcome Register :=
  match register.sites[index]? with
  | none => .error (.abort (.siteOutside index))
  | some site => .ok ⟨register.sites.set index { site with filled := false }⟩

def vacate (register : Register) (indices : List Nat) : Outcome Register :=
  indices.foldlM vacateOne register

def position (register : Register) (index : Nat) : Outcome Position :=
  match register.sites[index]? with
  | none => .error (.abort .missing)
  | some site => .ok site.position

/-- Whether a site is filled. Beyond the last site nothing is vacant. -/
def isFilled (register : Register) (index : Nat) : Bool :=
  (register.sites[index]?).all (·.filled)

def filledCount (register : Register) : Nat :=
  (register.sites.filter (·.filled)).length

/-- Opposite corners of the smallest box around all sites. -/
def bounds (register : Register) : Position × Position :=
  match register.sites with
  | [] => (Position.origin, Position.origin)
  | first :: rest =>
    (rest.foldl (fun corner site => corner.lower site.position) first.position,
      rest.foldl (fun corner site => corner.upper site.position) first.position)

def extent (register : Register) : Position :=
  let (lower, upper) := register.bounds
  ⟨upper.x - lower.x, upper.y - lower.y⟩

open Fingerprint in
def mixSite (running : UInt64) (site : Site) : UInt64 :=
  let mixed := mixAll running [ofText site.position.x.toText, ofText site.position.y.toText]
  if site.filled then mixed else mix mixed 1

def fingerprint (register : Register) : UInt64 :=
  register.sites.foldl mixSite (Fingerprint.seed "register")

def siteText (site : Site) : String :=
  site.position.text ++ if site.filled then "" else "_"

def text (register : Register) : String :=
  "\x7b" ++ ",".intercalate (register.sites.map siteText) ++ "\x7d"

end Register

end Analog
