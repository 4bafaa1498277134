import Analog.Channel
import Analog.Circuit

/-!
# Devices

What a device permits: a longest duration, a range of values for every uniformly driven
field, and the area in which sites can be placed. Anything that is not stated is not
limited.
-/

set_option autoImplicit false

namespace Analog

/-- An interval of permitted values, its ends included. -/
structure PermittedRange where
  lower : Decimal := 0
  upper : Decimal := 0

namespace PermittedRange

def contains (range : PermittedRange) (value : Decimal) : Bool :=
  decide (range.lower ≤ value) && decide (value ≤ range.upper)

end PermittedRange

/-- A rectangle in which sites can be placed. -/
structure Area where
  width : Decimal := 0
  height : Decimal := 0

structure Device where
  maxTime : Option Decimal := none
  limits : PerCoupling (PerField PermittedRange) := .empty
  area : Option Area := none

namespace Device

def range? (device : Device) (coupling : Coupling) (field : FieldName) : Option PermittedRange :=
  (device.limits.get? coupling).bind (·.get? field)

/-- Tiles the register of a circuit over the area of a device. -/
def tile (device : Device) (spacing : Decimal) (circuit : Circuit) : Outcome Circuit :=
  match device.area, circuit.layout with
  | none, _ => .error .noArea
  | some _, .tiled _ => .error .alreadyTiled
  | some area, .plain register => do
    let tiling ← Tiling.fill register spacing area.width area.height
    return { circuit with layout := .tiled tiling }

end Device

end Analog
