import Analog.Breakpoints

/-!
# Breakpoint series

A series describes a function from time zero to its last breakpoint. In a linear series
the values between breakpoints lie on lines; in a constant series each value holds until
the next breakpoint, and the last value repeats the one before it. Outside its domain a
series is zero. Times start at zero and increase strictly.
-/

set_option autoImplicit false

namespace Analog

structure Breakpoint where
  time : Decimal
  value : Decimal
  deriving DecidableEq

namespace Breakpoint

def text (point : Breakpoint) : String :=
  "(" ++ point.time.toText ++ "," ++ point.value.toText ++ ")"

def shift (point : Breakpoint) (offset : Decimal) : Breakpoint :=
  { point with time := point.time + offset }

end Breakpoint

namespace Breakpoints

def duration (points : List Breakpoint) : Decimal :=
  (points.getLast?.map (·.time)).getD 0

def times (points : List Breakpoint) : List Decimal :=
  points.map (·.time)

def values (points : List Breakpoint) : List Decimal :=
  points.map (·.value)

def mapValues (f : Decimal → Decimal) (points : List Breakpoint) : List Breakpoint :=
  points.map fun point => { point with value := f point.value }

/-- The first time that is not later than the one before it. -/
def firstNotIncreasing : List Decimal → Option Decimal
  | [] => none
  | [_] => none
  | first :: second :: rest =>
    if first < second then firstNotIncreasing (second :: rest) else some second

/-- Pairs times with values. There must be at least one time and as many values, and times must
start at zero and increase strictly. -/
def ofLists (times values : List Decimal) : Except Defect (List Breakpoint) :=
  match times with
  | [] => .error .noBreakpoints
  | first :: _ =>
    if times.length ≠ values.length then .error (.unequalCounts times.length values.length)
    else if !first.isZero then .error (.lateStart first)
    else
      match firstNotIncreasing times with
      | some time => .error (.notIncreasing time)
      | none => .ok (List.zipWith Breakpoint.mk times values)

/-- The breakpoints strictly between two times, counted from the first of these. -/
def inside (points : List Breakpoint) (start stop : Decimal) : List Breakpoint :=
  let count := points.length
  let times := times points
  let first := least count fun index => decide (start < times.getD index 0)
  let last := least count fun index => decide (stop ≤ times.getD index 0)
  ((points.drop first).take (last - first)).map fun point => point.shift (-start)

/-- Merges one time and a merger of all later ones into an increasing list of times. -/
def mergeFrom (first : Decimal) (later : List Decimal → List Decimal) : List Decimal → List Decimal
  | [] => first :: later []
  | other :: others =>
    if first < other then first :: later (other :: others)
    else if other < first then other :: mergeFrom first later others
    else first :: later others

/-- The union of two increasing lists of times, without repetition. -/
def union : List Decimal → List Decimal → List Decimal
  | [] => id
  | first :: rest => mergeFrom first (union rest)

/-- The value at `time` on the line through two breakpoints, whose times differ. -/
def onLine (first second : Breakpoint) (time : Decimal) : Decimal :=
  first.value +
    (((second.value - first.value) * (time - first.time)).div? (second.time - first.time)).getD 0

/-- Replaces the last of at least two values by the one before it. -/
def flatTail : List Breakpoint → List Breakpoint
  | [] => []
  | [point] => [point]
  | [first, second] => [first, { second with value := first.value }]
  | first :: second :: third :: rest => first :: flatTail (second :: third :: rest)

def validCut (start stop duration : Decimal) : Bool :=
  !(start.isNegative || decide (stop < start) || decide (duration < stop))

def text (kind : String) (points : List Breakpoint) : String :=
  kind ++ "\x7b" ++ ", ".intercalate (points.map Breakpoint.text) ++ "\x7d"

end Breakpoints

open Breakpoints

/-- A function that is linear between breakpoints. -/
structure LinearSeries where
  points : List Breakpoint
  deriving DecidableEq

namespace LinearSeries

def ofLists (times values : List Decimal) : Outcome LinearSeries :=
  Outcome.blame (fun _ => "") ((Breakpoints.ofLists times values).map LinearSeries.mk)

def duration (series : LinearSeries) : Decimal := Breakpoints.duration series.points

def eval (series : LinearSeries) (time : Decimal) : Decimal :=
  if time.isNegative || decide (series.duration < time) then 0
  else
    let index := segment (times series.points) time
    match series.points[index]?, series.points[index + 1]? with
    | some first, some second => onLine first second time
    | _, _ => (series.points.getLast?.map (·.value)).getD 0

def text (series : LinearSeries) : String := Breakpoints.text Target.linear.word series.points

/-- The part between two times. Values at the cuts are interpolated. -/
def slice (series : LinearSeries) (start stop : Decimal) : Outcome LinearSeries :=
  if validCut start stop series.duration then
    let last := if start < stop then [⟨stop - start, series.eval stop⟩] else []
    .ok ⟨⟨0, series.eval start⟩ :: inside series.points start stop ++ last⟩
  else .error (.malformed series.text (.invalidCut start stop series.duration))

/-- One series after the other. The value where they meet must be the same. -/
def append (first second : LinearSeries) : Outcome LinearSeries :=
  match first.points.getLast?, second.points with
  | some last, head :: rest =>
    if last.value = head.value then
      .ok ⟨first.points ++ rest.map (·.shift last.time)⟩
    else
      .error (.discontinuity last.time last.value.toText last.value head.value.toText head.value [])
  | _, _ => .error (.abort .missing)

def map (f : Decimal → Decimal) (series : LinearSeries) : LinearSeries :=
  ⟨mapValues f series.points⟩

/-- Whether two series are the same function: equal durations and equal values at every
breakpoint of either. -/
def same (left right : LinearSeries) : Bool :=
  left.duration == right.duration &&
    (times left.points ++ times right.points).all fun time => left.eval time == right.eval time

end LinearSeries

/-- A function that is constant between breakpoints. -/
structure ConstantSeries where
  points : List Breakpoint
  deriving DecidableEq

namespace ConstantSeries

/-- Pairs times with values; the last value is replaced by the one before it. -/
def ofLists (times values : List Decimal) : Outcome ConstantSeries :=
  Outcome.blame (fun _ => "")
    ((Breakpoints.ofLists times values).map fun points => ⟨flatTail points⟩)

def duration (series : ConstantSeries) : Decimal := Breakpoints.duration series.points

/-- The value of the step that holds at a time that is not before the first breakpoint. -/
def stepValue (series : ConstantSeries) (time : Decimal) : Decimal :=
  ((series.points[segment (times series.points) time]?).map (·.value)).getD 0

def eval (series : ConstantSeries) (time : Decimal) : Decimal :=
  if time.isNegative || decide (series.duration < time) then 0 else series.stepValue time

/-- The value of the step that starts at a time; from the end on it is zero. -/
def step (series : ConstantSeries) (time : Decimal) : Decimal :=
  if time.isNegative || decide (series.duration ≤ time) then 0 else series.stepValue time

def text (series : ConstantSeries) : String := Breakpoints.text Target.constant.word series.points

def slice (series : ConstantSeries) (start stop : Decimal) : Outcome ConstantSeries :=
  if validCut start stop series.duration then
    let last := if start < stop then [⟨stop - start, 0⟩] else []
    .ok ⟨flatTail (⟨0, series.eval start⟩ :: inside series.points start stop ++ last)⟩
  else .error (.malformed series.text (.invalidCut start stop series.duration))

/-- One series after the other. The step that starts where they meet is that of the second. -/
def append (first second : ConstantSeries) : ConstantSeries :=
  match first.points.getLast?, second.points with
  | some last, head :: rest =>
    ⟨flatTail (first.points.dropLast ++ ⟨last.time, head.value⟩ :: rest.map (·.shift last.time))⟩
  | _, _ => first

def map (f : Decimal → Decimal) (series : ConstantSeries) : ConstantSeries :=
  ⟨mapValues f series.points⟩

/-- Whether two series are the same function: equal durations and equal values at every
breakpoint of either. -/
def same (left right : ConstantSeries) : Bool :=
  left.duration == right.duration &&
    (times left.points ++ times right.points).all fun time => left.eval time == right.eval time

end ConstantSeries

inductive Series where
  | linear (series : LinearSeries)
  | constant (series : ConstantSeries)
  deriving DecidableEq

namespace Series

def target : Series → Target
  | linear _ => .linear
  | constant _ => .constant

/-- The series of the given form through points that are given by their times and values. -/
def ofLists (target : Target) (times values : List Decimal) : Outcome Series :=
  match target with
  | .linear => linear <$> LinearSeries.ofLists times values
  | .constant => constant <$> ConstantSeries.ofLists times values

def points : Series → List Breakpoint
  | linear series => series.points
  | constant series => series.points

def duration (series : Series) : Decimal := Breakpoints.duration series.points

def eval : Series → Decimal → Decimal
  | linear series => series.eval
  | constant series => series.eval

def text : Series → String
  | linear series => series.text
  | constant series => series.text

def slice (series : Series) (start stop : Decimal) : Outcome Series :=
  match series with
  | linear line => linear <$> line.slice start stop
  | constant steps => constant <$> steps.slice start stop

def append : Series → Series → Outcome Series
  | linear first, linear second => linear <$> first.append second
  | constant first, constant second => .ok (constant (first.append second))
  | _, _ => .error (.abort .missing)

def map (f : Decimal → Decimal) : Series → Series
  | linear line => linear (line.map f)
  | constant steps => constant (steps.map f)

def same : Series → Series → Bool
  | linear left, linear right => left.same right
  | constant left, constant right => left.same right
  | _, _ => false

end Series

end Analog
