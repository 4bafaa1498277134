import Analog.Canonical.Scalar
import Analog.Waveform.Duration

/-!
# Canonical waveforms

Scales and negations are moved outwards and merged, sums of like waveforms become scales,
constants that add nothing are dropped, slices move below scales and negations, and
waveforms one after the other form one list in which neighbouring constants of equal value
are merged. Each rule is applied to waveforms that are canonical already.
-/

set_option autoImplicit false

namespace Analog.Canonical

def duration (given : Waveform) : Simplifying Scalar :=
  scalar given.symbolicDuration

/-- A polynomial of degree zero is a constant, and one without coefficients is zero. -/
def poly (coefficients : List Scalar) (length : Scalar) : Waveform :=
  match coefficients with
  | [] => .zero length
  | [value] => .constant value length
  | several => .poly several length

def ramp (start stop length : Scalar) : Waveform :=
  if start.same stop then .constant start length else .ramp start stop length

def scale (factor : Scalar) (given : Waveform) : Simplifying Waveform :=
  if factor.isZero then do
    let length ← duration given
    return .zero length
  else if factor.isOne then pure given
  else
    match given with
    | .scale innerFactor inner => scale (product factor innerFactor) inner
    | .constant value length => pure (.constant (product factor value) length)
    | other => pure (.scale factor other)

def negate (given : Waveform) : Simplifying Waveform :=
  match given with
  | .negative inner => pure inner
  | .constant value length => pure (.constant (negative value) length)
  | .scale factor inner =>
    match factor.value? with
    | some value =>
      if value.isNegative then scale (.literal (-value)) inner
      else pure (.negative (.scale factor inner))
    | none => pure (.negative (.scale factor inner))
  | other => pure (.negative other)

/-- Whether an operand of a sum adds nothing to the other: a constant that is empty, or a zero
that does not outlast the other operand. -/
def isRedundant (given other : Waveform) : Simplifying Bool :=
  match given with
  | .constant value length =>
    if length.isZero then pure true
    else if value.isZero then do
      let otherLength ← duration other
      if length.same otherLength then return true
      else
        match length.value?, otherLength.value? with
        | some shorter, some longer => return decide (shorter ≤ longer)
        | _, _ => return false
    else pure false
  | _ => pure false

/-- The sum of waveforms that are neither equal nor redundant and have no part in common. -/
def plainSum (left right : Waveform) : Simplifying Waveform :=
  match right with
  | .scale factor inner =>
    if inner.same left then scale (sum factor Scalar.one) left else pure (.add left right)
  | _ => pure (.add left right)

def add (left right : Waveform) : Simplifying Waveform := do
  if left.same right then scale (.literal 2) left
  else if ← isRedundant left right then return right
  else if ← isRedundant right left then return left
  else
    match left, right with
    | .constant leftValue leftLength, .constant rightValue rightLength =>
      if leftLength.same rightLength then
        return .constant (sum leftValue rightValue) leftLength
      else plainSum left right
    | .scale leftFactor leftInner, .scale rightFactor rightInner =>
      if leftFactor.same rightFactor then do
        let inner ← add leftInner rightInner
        scale leftFactor inner
      else if leftInner.same rightInner then scale (sum leftFactor rightFactor) leftInner
      else plainSum left right
    | .scale leftFactor leftInner, other =>
      if leftInner.same other then scale (sum leftFactor Scalar.one) other
      else plainSum left right
    | _, _ => plainSum left right

/-- The part of a canonical waveform between canonical bounds. -/
def cut (bounds : Interval) (given : Waveform) : Simplifying Waveform := do
  let length ← duration given
  if coversAll bounds length then return given
  else
    match given with
    | .scale factor inner => do
      let inner' ← cut bounds inner
      scale factor inner'
    | .negative inner => do
      let inner' ← cut bounds inner
      negate inner'
    | .constant value extent => do
      let length' ← lift (slice (fun _ => (Waveform.slice given bounds).text) extent bounds)
      return .constant value length'
    | other => return .slice other bounds

/-- Adds a part that is not empty after others, the last of which comes first. -/
def joinPart (reversed : List Waveform) (part : Waveform) : List Waveform :=
  match reversed, part with
  | .constant value length :: rest, .constant nextValue nextLength =>
    if value.same nextValue then .constant value (sum length nextLength) :: rest
    else part :: reversed
  | _, _ => part :: reversed

/-- Joins parts from left to right and leaves out empty ones. -/
def joinParts (reversed : List Waveform) : List Waveform → Simplifying (List Waveform)
  | [] => pure reversed
  | part :: rest => do
    let length ← duration part
    if length.isZero then joinParts reversed rest
    else joinParts (joinPart reversed part) rest

def spliceParts : Waveform → List Waveform
  | .append parts => parts
  | other => [other]

def concatenate (parts : List Waveform) : Simplifying Waveform := do
  let reversed ← joinParts [] (parts.flatMap spliceParts)
  match reversed with
  | [] => return .zero Scalar.zero
  | [part] => return part
  | several => return .append several.reverse

def fill : FillValue → Simplifying FillValue
  | .explicit value => do
    let value' ← scalar value
    return .explicit value'
  | .boundary side => pure (.boundary side)

mutual

/-- The canonical form of a waveform. The waveforms inside a node come before its scalars. -/
def waveform : Waveform → Simplifying Waveform
  | .constant value length =>
    rememberWaveform (.constant value length) (pure ()) fun _ => do
      let value' ← scalar value
      let length' ← scalar length
      return .constant value' length'
  | .ramp start stop length =>
    rememberWaveform (.ramp start stop length) (pure ()) fun _ => do
      let start' ← scalar start
      let stop' ← scalar stop
      let length' ← scalar length
      return ramp start' stop' length'
  | .poly coefficients length =>
    rememberWaveform (.poly coefficients length) (pure ()) fun _ => do
      let coefficients' ← scalars coefficients
      let length' ← scalar length
      return poly coefficients' length'
  | .native name function length parameters =>
    rememberWaveform (.native name function length parameters) (pure ()) fun _ => do
      let length' ← scalar length
      let parameters' ← scalars parameters
      return .native name function length' parameters'
  | .negative inner =>
    rememberWaveform (.negative inner) (waveform inner) negate
  | .add left right =>
    rememberWaveform (.add left right)
      (do
        let left' ← waveform left
        let right' ← waveform right
        return (left', right'))
      fun (left', right') => add left' right'
  | .scale factor inner =>
    rememberWaveform (.scale factor inner) (waveform inner) fun inner' => do
      let factor' ← scalar factor
      scale factor' inner'
  | .slice inner bounds =>
    rememberWaveform (.slice inner bounds) (waveform inner) fun inner' => do
      let bounds' ← interval bounds
      cut bounds' inner'
  | .append parts =>
    rememberWaveform (.append parts) (waveforms parts) concatenate
  | .record name inner side =>
    rememberWaveform (.record name inner side) (waveform inner) fun inner' =>
      pure (.record name inner' side)
  | .sample inner step interpolation =>
    rememberWaveform (.sample inner step interpolation) (waveform inner) fun inner' => do
      let step' ← scalar step
      return .sample inner' step' interpolation
  | .smooth inner radius kernel =>
    rememberWaveform (.smooth inner radius kernel) (waveform inner) fun inner' => do
      let radius' ← scalar radius
      return .smooth inner' radius' kernel
  | .aligned inner alignment value =>
    rememberWaveform (.aligned inner alignment value) (waveform inner) fun inner' => do
      let value' ← fill value
      return .aligned inner' alignment value'

/-- The canonical forms of several waveforms, from left to right. -/
def waveforms : List Waveform → Simplifying (List Waveform)
  | [] => pure []
  | part :: rest => do
    let part' ← waveform part
    let rest' ← waveforms rest
    return part' :: rest'

end

theorem waveforms_eq_mapM (parts : List Waveform) : waveforms parts = parts.mapM waveform := by
  induction parts with
  | nil => rw [waveforms, List.mapM_nil]
  | cons part rest ih => rw [waveforms, List.mapM_cons, ih]

end Analog.Canonical
