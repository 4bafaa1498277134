import Analog.Waveform.Signal

/-!
# Built-in native functions

The functions of time that programs can name: `double`, `square` and `affine`, the last
with the intercept and the slope as its parameters.
-/

set_option autoImplicit false

namespace Analog.Builtin

def run (function : String) (time : Decimal) (parameters : List Decimal) : Outcome Decimal :=
  match function, parameters with
  | "double", _ => .ok (time + time)
  | "square", _ => .ok (time * time)
  | "affine", intercept :: slope :: _ => .ok (intercept + slope * time)
  | _, _ => .error (.abort .missing)

instance natives : Natives := ⟨run⟩

end Analog.Builtin
