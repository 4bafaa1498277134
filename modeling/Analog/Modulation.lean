import Analog.Scalar.Value

/-!
# Spatial modulations

A modulation gives every site of a register the weight with which it is driven: one for
all, a vector that is supplied later, a vector that has been supplied, or a weight for
each of some listed sites and zero for the others.
-/

set_option autoImplicit false

namespace Analog

/-- A site, numbered by a word, with its weight. -/
structure Location where
  site : UInt64
  weight : Scalar

/-- Compares sites by the sign of their difference. The difference is a word too and wraps, so
this is the order of the numbers only for sites less than `2 ^ 63` apart. -/
def Location.before (left right : Location) : Bool :=
  left.site.toInt64 - right.site.toInt64 < 0

inductive Modulation where
  | uniform
  | vector (name : String)
  | assignedVector (name : String) (values : List Decimal)
  /-- Listed sites, each once. -/
  | scaled (locations : List Location)

namespace Modulation

instance : Inhabited Modulation := ⟨.uniform⟩

/-- Adds a location to others. A second weight of a site is added to the first. -/
def gatherLocation (location : Location) : List Location → List Location
  | [] => [location]
  | head :: rest =>
    if location.site = head.site then ⟨head.site, .add head.weight location.weight⟩ :: rest
    else head :: gatherLocation location rest

/-- Every site once, in the order in which they come up first. -/
def gatherAll (locations : List Location) : List Location :=
  locations.foldl (fun gathered location => gatherLocation location gathered) []

/-- Puts a location in its place, coming from the end. The list stands the other way round. -/
def placeLocation (location : Location) : List Location → List Location
  | [] => [location]
  | last :: earlier =>
    if location.before last then last :: placeLocation location earlier
    else location :: last :: earlier

def sortLocations (locations : List Location) : List Location :=
  (locations.foldl (fun placed location => placeLocation location placed) []).reverse

def placeAll (locations : List Location) : List Location :=
  sortLocations (gatherAll locations)

def ofLocations (locations : List Location) : Modulation :=
  .scaled (placeAll locations)

def sameLocations : List Location → List Location → Bool
  | [], [] => true
  | left :: lefts, right :: rights =>
    left.site == right.site && left.weight.same right.weight && sameLocations lefts rights
  | _, _ => false

def same : Modulation → Modulation → Bool
  | .uniform, .uniform => true
  | .vector left, .vector right => left == right
  | .assignedVector left leftValues, .assignedVector right rightValues =>
    left == right && leftValues == rightValues
  | .scaled left, .scaled right => sameLocations left right
  | _, _ => false

open Fingerprint in
def fingerprint : Modulation → UInt64
  | .uniform => seed "uniform"
  | .vector name => mix (seed "vector") (ofText name)
  | .assignedVector name values =>
    mixAll (mix (seed "assigned_vector") (ofText name))
      (values.map fun value => ofText value.toText)
  | .scaled locations =>
    mixAll (seed "scaled") (locations.flatMap fun location =>
      [location.site, location.weight.fingerprint])

def locationText (location : Location) : String :=
  toString location.site.toNat ++ ":" ++ location.weight.text

def text : Modulation → String
  | .uniform => "uniform"
  | .vector name => name
  | .assignedVector name values => name ++ vectorText values
  | .scaled locations => "\x7b" ++ " ".intercalate (locations.map locationText) ++ "\x7d"

def toTerm : Modulation → Term
  | .uniform => .symbol "uniform"
  | .vector name => .tagged "vector" [.symbol name]
  | .assignedVector name values =>
    .tagged "vector" [.symbol name, .array (values.map fun value => .symbol value.toText)]
  | .scaled locations =>
    .tagged "scaled" (locations.map fun location =>
      .list [.symbol (toString location.site.toNat), location.weight.toTerm])

def weightOf? (locations : List Location) (site : Nat) : Option Scalar :=
  (locations.find? (·.site.toNat == site)).map (·.weight)

/-- Whether a site is listed; only listed sites have such a mark. -/
def drives? (site : Nat) : Modulation → Option Bool
  | .scaled locations => some (weightOf? locations site).isSome
  | _ => none

/-- Evaluates the weights of listed sites, each of which must exist. -/
def locationValues (bindings : ScalarBindings) (subject : Unit → String) (sites : Nat) :
    List Location → Outcome (List (Nat × Decimal))
  | [] => .ok []
  | location :: rest => do
    if sites ≤ location.site.toNat then
      .error (.malformed (subject ()) (.siteOutside location.site.toNat sites))
    else
      let value ← location.weight.eval bindings
      let values ← locationValues bindings subject sites rest
      return (location.site.toNat, value) :: values

/-- The weight of every site of a register of the given size. A supplied vector must have one
value for every site. -/
def coefficients (bindings : ScalarBindings) (sites : Nat) (modulation : Modulation) :
    Outcome (List Decimal) :=
  match modulation with
  | .uniform => .ok (List.replicate sites 1)
  | .vector name => .error (.unbound [] [name])
  | .assignedVector name values =>
    if values.length = sites then .ok values
    else
      .error (.malformed (Modulation.assignedVector name values).text
        (.wrongVectorLength values.length sites))
  | .scaled locations => do
    let values ← locationValues bindings (fun _ => (Modulation.scaled locations).text) sites
      locations
    return (List.range sites).map fun site => (values.lookup site).getD 0

end Modulation

end Analog
