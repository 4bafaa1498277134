import Analog.Decimal.Binary
import Analog.Failure
import Analog.Waveform

/-!
# Smoothing

A smoothed waveform is a weighted mean of values on a regular grid around each time.
The weights are transcendental, so this is the one place where values are approximate:
weights and means are computed in binary floating point.
-/

set_option autoImplicit false

namespace Analog

namespace Kernel

def pi : Float := 3.141592653589793

def weight (kernel : Kernel) (distance : Float) : Float :=
  let size := distance.abs
  match kernel with
  | gaussian => Float.exp (-distance * distance / 2) / Float.sqrt (2 * pi)
  | logistic => 1 / (Float.exp distance + 2 + Float.exp (-distance))
  | sigmoid => 2 / pi / (Float.exp distance + Float.exp (-distance))
  | triangle => if size > 1 then 0 else 1 - size
  | uniform => if size > 1 then 0 else 0.5
  | parabolic => if size > 1 then 0 else 0.75 * (1 - distance * distance)
  | biweight => if size > 1 then 0 else 15.0 / 16 * Float.pow (1 - distance * distance) 2
  | triweight => if size > 1 then 0 else 35.0 / 32 * Float.pow (1 - distance * distance) 3
  | tricube => if size > 1 then 0 else 70.0 / 81 * Float.pow (1 - size * size * size) 3
  | cosine => if size > 1 then 0 else pi / 4 * Float.cos (pi * distance / 2)

/-- The distance, in radii, beyond which the weight is zero or negligible. -/
def support : Kernel → Nat
  | gaussian => 4
  | logistic => 4
  | sigmoid => 4
  | _ => 1

end Kernel

namespace Smoothing

def resolution : Decimal := 8

/-- The running sums of a weighted mean. -/
structure Mean where
  weighted : Float
  weights : Float

def decimalOf (value : Float) : Outcome Decimal :=
  match Decimal.ofFloat? value with
  | some decimal => .ok decimal
  | none => .error (.abort (.notFinite (Binary.ofBits value.toBits).specialName))

def integers (first last : Int) : List Int :=
  (List.range (last - first + 1).toNat).map fun (offset : Nat) => first + (offset : Int)

/-- The sums of weights and of weighted values on the grid around `time`, for a waveform of the
given duration and values. Grid points past the end count as the end. -/
def meanAt (kernel : Kernel) (radius duration : Decimal) (value : Decimal → Outcome Decimal)
    (time : Decimal) : Outcome Mean := do
  let step ← radius.quotient resolution
  let reach := radius * Decimal.ofInt kernel.support
  let first ← (max 0 (time - reach)).quotient step
  let last ← (min duration (time + reach)).quotient step
  (integers first.floor last.ceil).foldlM (fun (mean : Mean) index => do
    let point := min duration (Decimal.ofInt index * step)
    let weight := kernel.weight ((time - point).toFloat / radius.toFloat)
    if weight == 0 then return mean
    let height ← value point
    return ⟨mean.weighted + weight * height.toFloat, mean.weights + weight⟩) ⟨0, 0⟩

def valueAt (kernel : Kernel) (radius duration : Decimal) (value : Decimal → Outcome Decimal)
    (time : Decimal) : Outcome Decimal := do
  let mean ← meanAt kernel radius duration value time
  if mean.weights == 0 then value time
  else decimalOf (mean.weighted / mean.weights)

end Smoothing

end Analog
