import Analog.Series.Lowering

/-!
# Validation

Whether a waveform has a series of the wanted form can be told without computing one. The
waveform is outlined first: every node gets expressions for its values at both ends, and
its duration. Then, for linear series, all joints are checked from the top down, at the
times at which they occur in the whole; joints that a slice hides do not count. A jump is
reported with the expressions at both sides and the variables in them.
-/

set_option autoImplicit false

namespace Analog

/-- What joints need to know of a waveform. Waveforms one after the other that are none have
no values at their ends. -/
structure Ends where
  start : Option Scalar
  stop : Option Scalar
  duration : Decimal

/-- A waveform as far as its joints are concerned. -/
inductive Outline where
  | leaf (ends : Ends)
  | wrapped (ends : Ends) (inner : Outline)
  | sum (ends : Ends) (left right : Outline)
  /-- A part of something, with the time at which the part begins in it. -/
  | cut (ends : Ends) (shift : Decimal) (inner : Outline)
  | append (ends : Ends) (parts : List Outline)

def Outline.ends : Outline → Ends
  | .leaf ends => ends
  | .wrapped ends _ => ends
  | .sum ends _ _ => ends
  | .cut ends _ _ => ends
  | .append ends _ => ends

namespace Validation

/-- The value of a polynomial at a time, powers built up one by one from `power`. -/
def addPowers (time : Scalar) : (value power : Scalar) → List Scalar → Scalar
  | value, _, [] => value
  | value, power, coefficient :: rest =>
    let next := Scalar.mul power time
    addPowers time (.add value (.mul coefficient next)) next rest

/-- An expression for the value of a polynomial at a time. -/
def polynomial (time : Scalar) : List Scalar → Scalar
  | [] => Scalar.zero
  | value :: rest => addPowers time value Scalar.one rest

/-- An expression for the value of a line at a time. A line without duration stays at its
start. -/
def ramp (bindings : ScalarBindings) (time start stop duration : Scalar) : Scalar :=
  if time.isZero then start
  else if time.same duration then stop
  else
    match duration.eval bindings with
    | .error _ => start
    | .ok length =>
      if length.isZero then start
      else .add start (.mul (.div (Scalar.sub stop start) duration) time)

/-- An expression for the value of a leaf at a time, below any number of negations, scales,
records and alignments. Other waveforms have none. -/
def symbolicValue? (bindings : ScalarBindings) (time : Scalar) : Waveform → Option Scalar
  | .negative inner => (symbolicValue? bindings time inner).map (.mul (.literal (-1)) ·)
  | .scale factor inner => (symbolicValue? bindings time inner).map (.mul factor ·)
  | .record _ inner _ => symbolicValue? bindings time inner
  | .aligned inner _ _ => symbolicValue? bindings time inner
  | .constant value _ => some value
  | .ramp start stop duration => some (ramp bindings time start stop duration)
  | .poly coefficients _ => some (polynomial time coefficients)
  | .native .. => none
  | .add .. => none
  | .slice .. => none
  | .append .. => none
  | .sample .. => none
  | .smooth .. => none

/-- An expression for the value of a waveform at a time, or the value itself as a number. -/
def valueAt [Natives] (bindings : ScalarBindings) (waveform : Waveform) (time : Scalar) :
    Outcome Scalar :=
  match symbolicValue? bindings time waveform with
  | some value => .ok value
  | none => do
    let moment ← time.eval bindings
    let value ← waveform.valueAt bindings moment
    return .literal value

/-- The value at a bound, if there is one, and else the value given. -/
def boundValue [Natives] (bindings : ScalarBindings) (waveform : Waveform)
    (given : Option Scalar) : Option Scalar → Outcome (Option Scalar)
  | none => .ok given
  | some bound => do
    let value ← valueAt bindings waveform bound
    return some value

/-- An expression made of an end value that must be there. -/
def mapEnd (f : Scalar → Scalar) (value : Option Scalar) : Outcome (Option Scalar) := do
  let present ← Outcome.need value
  return some (f present)

def mapEnds (f : Scalar → Scalar) (ends : Ends) : Outcome Ends := do
  let start ← mapEnd f ends.start
  let stop ← mapEnd f ends.stop
  return ⟨start, stop, ends.duration⟩

def addEnds (left right : Option Scalar) : Outcome (Option Scalar) := do
  let leftValue ← Outcome.need left
  let rightValue ← Outcome.need right
  return some (.add leftValue rightValue)

/-- The ends of a sum. Only the longer operand counts at the end. -/
def sumOfEnds (left right : Ends) : Outcome Ends := do
  let start ← addEnds left.start right.start
  if left.duration < right.duration then return ⟨start, right.stop, right.duration⟩
  else if right.duration < left.duration then return ⟨start, left.stop, left.duration⟩
  else
    let stop ← addEnds left.stop right.stop
    return ⟨start, stop, left.duration⟩

def followEnds (before part : Ends) : Ends :=
  if before.duration.isZero then ⟨part.start, part.stop, before.duration + part.duration⟩
  else if part.duration.isZero then ⟨before.start, before.stop, before.duration + part.duration⟩
  else ⟨before.start, part.stop, before.duration + part.duration⟩

def joinEnds (parts : List Ends) : Ends :=
  parts.foldl followEnds ⟨none, none, 0⟩

def checkJoint (bindings : ScalarBindings) (time : Decimal) (left right : Option Scalar) :
    Outcome Unit :=
  match left, right with
  | some leftValue, some rightValue => do
    let leftNumber ← leftValue.eval bindings
    let rightNumber ← rightValue.eval bindings
    if leftNumber = rightNumber then return ()
    else
      let occurring :=
        Scalar.firstOccurrences (leftValue.occurrences ++ rightValue.occurrences)
      .error (.discontinuity time leftValue.text leftNumber rightValue.text rightNumber
        (occurring.map fun found =>
          (found.name, found.value.getD ((bindings.find? found.name).getD 0))))
  | _, _ => .error (.abort (.demanded "unknown scalar encountered: <nil>"))

/-- The times between which something can be seen; without a window all times can. -/
structure Window where
  lower : Decimal
  upper : Decimal

def visible (window : Option Window) (time : Decimal) : Bool :=
  window.all fun inside => decide (inside.lower < time) && decide (time < inside.upper)

def narrow (window : Option Window) (lower upper : Decimal) : Window :=
  match window with
  | none => ⟨lower, upper⟩
  | some outer => ⟨max lower outer.lower, min upper outer.upper⟩

def checkDropout (bindings : ScalarBindings) (window : Option Window) (offset : Decimal)
    (left right : Ends) : Outcome Unit :=
  let check := fun (shorter : Ends) =>
    if visible window (offset + shorter.duration) then
      checkJoint bindings (offset + shorter.duration) shorter.stop (some Scalar.zero)
    else .ok ()
  if left.duration < right.duration then check left
  else if right.duration < left.duration then check right
  else .ok ()

/-- Whether all visible joints between parts agree. Parts without duration have none. -/
def checkJoints (bindings : ScalarBindings) (window : Option Window) :
    (before : Option Ends) → (offset : Decimal) → List Ends → Outcome Unit
  | _, _, [] => .ok ()
  | before, offset, part :: rest =>
    if part.duration.isZero then checkJoints bindings window before offset rest
    else do
      match before with
      | some previous =>
        if visible window offset then checkJoint bindings offset previous.stop part.start
      | none => pure ()
      checkJoints bindings window (some part) (offset + part.duration) rest

mutual

/-- Checks all joints of an outline that begins at the given time, each node before its
parts. -/
def continuity (bindings : ScalarBindings) (window : Option Window) (offset : Decimal) :
    Outline → Outcome Unit
  | .leaf _ => .ok ()
  | .wrapped _ inner => continuity bindings window offset inner
  | .sum _ left right => do
    checkDropout bindings window offset left.ends right.ends
    continuity bindings window offset left
    continuity bindings window offset right
  | .cut ends shift inner =>
    continuity bindings (some (narrow window offset (offset + ends.duration))) (offset - shift)
      inner
  | .append _ parts => do
    checkJoints bindings window none offset (parts.map Outline.ends)
    continuityAll bindings window offset parts

def continuityAll (bindings : ScalarBindings) (window : Option Window) (offset : Decimal) :
    List Outline → Outcome Unit
  | [] => .ok ()
  | part :: rest => do
    continuity bindings window offset part
    continuityAll bindings window (offset + part.ends.duration) rest

end

def checkPolynomial (target : Target) (construct : Unit → String) (duration : Decimal)
    (coefficients : List Decimal) : Outcome Unit :=
  let terms := (Lowering.significant coefficients).length
  match target with
  | .linear =>
    if 2 < terms then .error (.unsupported (construct ()) target .highDegree) else .ok ()
  | .constant =>
    if 1 < terms && !duration.isZero then
      .error (.unsupported (construct ()) target .varyingPiece)
    else .ok ()

def interpolationFor : Target → Interpolation
  | .linear => .linear
  | .constant => .constant

/-- The ends of a sampled waveform. A linear one passes through its first and last sample; the
end of a constant one is evaluated. -/
def sampledEnds [Natives] (bindings : ScalarBindings) (target : Target) (inner : Waveform)
    (step : Scalar) (interpolation : Interpolation) : Outcome Ends := do
  let duration ← inner.duration bindings
  match target with
  | .linear =>
    let start ← valueAt bindings inner Scalar.zero
    let stop ← valueAt bindings inner inner.symbolicDuration
    return ⟨some start, some stop, duration⟩
  | .constant =>
    let meaning ← (Waveform.sample inner step interpolation).signal bindings
    let start ← meaning.value 0
    let stop ← meaning.value duration
    return ⟨some (.literal start), some (.literal stop), duration⟩

end Validation

namespace Waveform

open Validation

variable [Natives]

mutual

/-- The outline of a waveform; it fails on what has no series of the wanted form. -/
def outline (bindings : ScalarBindings) (target : Target) : Waveform → Outcome Outline
  | .constant value duration => do
    let length ← Lowering.leafDuration bindings
      (fun _ => (Waveform.constant value duration).text) duration
    return .leaf ⟨some value, some value, length⟩
  | .ramp start stop duration => do
    let subject := fun (_ : Unit) => (Waveform.ramp start stop duration).text
    let length ← Lowering.leafDuration bindings subject duration
    match target with
    | .linear => return .leaf ⟨some start, some stop, length⟩
    | .constant =>
      if length.isZero then return .leaf ⟨some start, some stop, length⟩
      else
        let startValue ← start.eval bindings
        let stopValue ← stop.eval bindings
        if startValue = stopValue then return .leaf ⟨some start, some stop, length⟩
        else .error (.unsupported (subject ()) target .risingPiece)
  | .poly coefficients duration => do
    let subject := fun (_ : Unit) => (Waveform.poly coefficients duration).text
    let length ← Lowering.leafDuration bindings subject duration
    let values ← Scalar.evalAll bindings coefficients
    checkPolynomial target subject length values
    return .leaf ⟨some (coefficients.headD Scalar.zero), some (polynomial duration coefficients),
      length⟩
  | .native name function duration parameters =>
    .error (.unsupported (Waveform.native name function duration parameters).text target
      (.native name))
  | .negative inner => do
    let outlined ← outline bindings target inner
    let ends ← mapEnds .negative outlined.ends
    return .wrapped ends outlined
  | .add left right => do
    let outlinedLeft ← outline bindings target left
    let outlinedRight ← outline bindings target right
    let ends ← sumOfEnds outlinedLeft.ends outlinedRight.ends
    return .sum ends outlinedLeft outlinedRight
  | .scale factor inner => do
    let outlined ← outline bindings target inner
    let ends ← mapEnds (.mul factor) outlined.ends
    return .wrapped ends outlined
  | .slice inner interval => do
    let outlined ← outline bindings target inner
    let (lower, upper) ← sliceBounds bindings (fun _ => (Waveform.slice inner interval).text)
      interval outlined.ends.duration
    let start ← boundValue bindings inner outlined.ends.start interval.start
    let stop ← boundValue bindings inner outlined.ends.stop interval.stop
    return .cut ⟨start, stop, upper - lower⟩ lower outlined
  | .append parts => do
    let outlined ← outlineAll bindings target parts
    return .append (joinEnds (outlined.map Outline.ends)) outlined
  | .record _ inner _ => do
    let outlined ← outline bindings target inner
    return .wrapped outlined.ends outlined
  | .sample inner step interpolation =>
    if interpolation = interpolationFor target then do
      let ends ← sampledEnds bindings target inner step interpolation
      return .leaf ends
    else
      .error (.unsupported (Waveform.sample inner step interpolation).text target
        (.interpolation interpolation.name))
  | .smooth inner radius kernel =>
    .error (.unsupported (Waveform.smooth inner radius kernel).text target .smoothed)
  | .aligned inner _ _ => do
    let outlined ← outline bindings target inner
    return .wrapped outlined.ends outlined

def outlineAll (bindings : ScalarBindings) (target : Target) :
    List Waveform → Outcome (List Outline)
  | [] => .ok []
  | part :: rest => do
    let outlined ← outline bindings target part
    let others ← outlineAll bindings target rest
    return outlined :: others

end

theorem outline_native (bindings : ScalarBindings) (target : Target) (name function : String)
    (duration : Scalar) (parameters : List Scalar) :
    outline bindings target (.native name function duration parameters) =
      .error (.unsupported (Waveform.native name function duration parameters).text target
        (.native name)) := by
  rw [outline]

/-- Checks that a waveform has a series of the wanted form. -/
def validate (bindings : ScalarBindings) (target : Target) (waveform : Waveform) :
    Outcome Unit := do
  let outlined ← waveform.outline bindings target
  match target with
  | .linear => continuity bindings none 0 outlined
  | .constant => return ()

end Waveform

end Analog
