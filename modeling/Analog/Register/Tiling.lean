import Analog.Register

/-!
# Tiled registers

Copies of a base register fill a rectangular area, row by row from the lower left-hand
corner, with a fixed spacing between neighbours. Every site of the whole belongs to one
copy and stands for one site of the base.
-/

set_option autoImplicit false

namespace Analog

/-- The place of a site: in which copy it lies, its number in the whole and its number in the
base register. -/
structure SiteMapping where
  cluster : Nat
  site : Nat
  baseSite : Nat
  deriving DecidableEq

/-- Copies of a base register, each moved by an offset. -/
structure Tiling where
  base : Register
  spacing : Decimal
  offsets : List Position
  deriving DecidableEq

namespace Tiling

/-- How many copies of an extent fit in a length: one more than the whole number of steps, each
an extent and a spacing long, in what remains after the first. The count is a word of 64 bits and
starts again at zero after the largest word. -/
def copies (extent spacing length : Decimal) : Outcome Nat :=
  if length < extent then .ok 0
  else do
    let steps ← (length - extent).quotient (extent + spacing)
    return (UInt64.ofNat steps.floor.toNat + 1).toNat

/-- How far the copy in a column and a row is moved. The box around the first copy has its lower
left-hand corner at the origin. -/
def offsetAt (base : Register) (spacing : Decimal) (column row : Nat) : Position :=
  let lower := base.bounds.1
  ⟨(base.extent.x + spacing) * Decimal.ofInt column - lower.x,
    (base.extent.y + spacing) * Decimal.ofInt row - lower.y⟩

/-- Copies of a base register in columns and rows, row by row. -/
def grid (base : Register) (spacing : Decimal) (columns rows : Nat) : Tiling :=
  ⟨base, spacing, (List.range rows).flatMap fun (row : Nat) =>
    (List.range columns).map fun (column : Nat) => offsetAt base spacing column row⟩

/-- Fills an area of the given width and height. At least one copy must fit. -/
def fill (base : Register) (spacing width height : Decimal) : Outcome Tiling := do
  if !spacing.isPositive then .error (.spacingNotPositive spacing)
  else if base.size = 0 then .error .emptyRegister
  else
    let columns ← copies base.extent.x spacing width
    let rows ← copies base.extent.y spacing height
    if columns = 0 || rows = 0 then
      .error (.doesNotFit base.extent.x base.extent.y width height)
    else return grid base spacing columns rows

def clusters (tiling : Tiling) : Nat := tiling.offsets.length

def size (tiling : Tiling) : Nat := tiling.clusters * tiling.base.size

def sites (tiling : Tiling) : List Site :=
  tiling.offsets.flatMap fun offset =>
    tiling.base.sites.map fun site => { site with position := site.position.shift offset }

def mappings (tiling : Tiling) : List SiteMapping :=
  (List.range tiling.clusters).flatMap fun cluster =>
    (List.range tiling.base.size).map fun baseSite =>
      ⟨cluster, cluster * tiling.base.size + baseSite, baseSite⟩

/-- Gives every site the value of the base site for which it stands. -/
def spread (tiling : Tiling) (values : List Decimal) : List Decimal :=
  tiling.mappings.foldl
    (fun spread mapping => spread.set mapping.site (values.getD mapping.baseSite 0))
    (List.replicate tiling.size 0)

def fingerprint (tiling : Tiling) : UInt64 :=
  Fingerprint.mixAll (Fingerprint.seed "parallel")
    [tiling.base.fingerprint, Fingerprint.ofText tiling.spacing.toText,
      UInt64.ofNat tiling.clusters]

def text (tiling : Tiling) : String :=
  toString tiling.clusters ++ " x " ++ tiling.base.text

theorem length_sites (tiling : Tiling) : tiling.sites.length = tiling.size := by
  simp [sites, size, clusters, Register.size, List.length_flatMap, List.map_const']

theorem length_spread (tiling : Tiling) (values : List Decimal) :
    (tiling.spread values).length = tiling.size := by
  have written : ∀ (mappings : List SiteMapping) (start : List Decimal),
      (mappings.foldl (fun spread mapping =>
        spread.set mapping.site (values.getD mapping.baseSite 0)) start).length = start.length := by
    intro mappings
    induction mappings with
    | nil => exact fun start => rfl
    | cons mapping rest ih => exact fun start => (ih _).trans List.length_set
  rw [spread, written, List.length_replicate]

end Tiling

/-- An arrangement of sites: a register by itself, or copies of one. -/
inductive Layout where
  | plain (register : Register)
  | tiled (tiling : Tiling)
  deriving DecidableEq

namespace Layout

def size : Layout → Nat
  | plain register => register.size
  | tiled tiling => tiling.size

def sites : Layout → List Site
  | plain register => register.sites
  | tiled tiling => tiling.sites

def fingerprint : Layout → UInt64
  | plain register => register.fingerprint
  | tiled tiling => tiling.fingerprint

def text : Layout → String
  | plain register => register.text
  | tiled tiling => tiling.text

end Layout

end Analog
