import Analog.Scalar

/-!
# Waveforms

A waveform is a function of time over a finite duration, built from constants, ramps,
polynomials and native functions. All its numbers are scalar expressions. This module
holds the type, equality, fingerprints and the readable form; durations and values
stand in modules of their own.
-/

set_option autoImplicit false

namespace Analog

/-- One of the two ends of a waveform. -/
inductive Side where
  | left
  | right
  deriving DecidableEq, Inhabited

namespace Side

def name : Side → String
  | left => "left"
  | right => "right"

def opposite : Side → Side
  | left => right
  | right => left

def ofName? (text : String) : Option Side :=
  [left, right].find? (·.name == text)

def code : Side → UInt64
  | left => 0
  | right => 1

end Side

/-- How values between sample points are filled in. -/
inductive Interpolation where
  | linear
  | constant
  deriving DecidableEq, Inhabited

namespace Interpolation

def name : Interpolation → String
  | linear => "linear"
  | constant => "constant"

def ofName? (text : String) : Option Interpolation :=
  [linear, constant].find? (·.name == text)

def code : Interpolation → UInt64
  | linear => 0
  | constant => 1

end Interpolation

/-- The shape of the weights used in smoothing. -/
inductive Kernel where
  | gaussian
  | logistic
  | sigmoid
  | triangle
  | uniform
  | parabolic
  | biweight
  | triweight
  | tricube
  | cosine
  deriving DecidableEq, Inhabited

namespace Kernel

def name : Kernel → String
  | gaussian => "gaussian"
  | logistic => "logistic"
  | sigmoid => "sigmoid"
  | triangle => "triangle"
  | uniform => "uniform"
  | parabolic => "parabolic"
  | biweight => "biweight"
  | triweight => "triweight"
  | tricube => "tricube"
  | cosine => "cosine"

def all : List Kernel :=
  [gaussian, logistic, sigmoid, triangle, uniform, parabolic, biweight, triweight, tricube, cosine]

def ofName? (text : String) : Option Kernel :=
  all.find? (·.name == text)

def code (kernel : Kernel) : UInt64 :=
  UInt64.ofNat (all.idxOf kernel)

end Kernel

/-- The value with which an aligned waveform is extended: a given one, or its own value at one
of its ends. -/
inductive FillValue where
  | explicit (value : Scalar)
  | boundary (side : Side)

namespace FillValue

def isBoundary : FillValue → Bool
  | explicit _ => false
  | boundary _ => true

def same : FillValue → FillValue → Bool
  | explicit first, explicit second => first.same second
  | boundary first, boundary second => first == second
  | _, _ => false

def fingerprint : FillValue → UInt64
  | explicit value => value.fingerprint
  | boundary side => Fingerprint.mix (Fingerprint.seed "side") side.code

def toTerm : FillValue → Term
  | explicit value => value.toTerm
  | boundary side => .symbol side.name

def text (fill : FillValue) : String := fill.toTerm.render false

def scalars : FillValue → List Scalar
  | explicit value => [value]
  | boundary _ => []

end FillValue

inductive Waveform where
  /-- A fixed value. -/
  | constant (value duration : Scalar)
  /-- A straight line from one value to another. -/
  | ramp (start stop duration : Scalar)
  /-- A polynomial in time, coefficients in increasing degree. -/
  | poly (coefficients : List Scalar) (duration : Scalar)
  /-- A function known by an identifier only, with parameters. -/
  | native (name function : String) (duration : Scalar) (parameters : List Scalar)
  | negative (inner : Waveform)
  /-- The sum of two waveforms; the shorter one contributes nothing after its end. -/
  | add (left right : Waveform)
  | scale (factor : Scalar) (inner : Waveform)
  /-- The part of a waveform that lies in an interval, moved to time zero. -/
  | slice (inner : Waveform) (interval : Interval)
  /-- Waveforms one after the other. -/
  | append (parts : List Waveform)
  /-- The waveform itself, while a variable stands for its value at one end. -/
  | record (name : String) (inner : Waveform) (side : Side)
  /-- Values at regular steps, with interpolation between them. -/
  | sample (inner : Waveform) (step : Scalar) (interpolation : Interpolation)
  | smooth (inner : Waveform) (radius : Scalar) (kernel : Kernel)
  /-- The waveform itself, with advice on how to extend it. -/
  | aligned (inner : Waveform) (alignment : Side) (fill : FillValue)

namespace Waveform

instance : Inhabited Waveform := ⟨.append []⟩

def zero (duration : Scalar) : Waveform := .constant Scalar.zero duration

/-- Whether two lists of scalars are equal place by place. -/
def sameScalars : List Scalar → List Scalar → Bool
  | [], [] => true
  | left :: lefts, right :: rights => left.same right && sameScalars lefts rights
  | _, _ => false

mutual

/-- Structural equality. Native waveforms need the same name, function and parameters. -/
def same : Waveform → Waveform → Bool
  | .constant value₁ duration₁, .constant value₂ duration₂ =>
    value₁.same value₂ && duration₁.same duration₂
  | .ramp start₁ stop₁ duration₁, .ramp start₂ stop₂ duration₂ =>
    start₁.same start₂ && stop₁.same stop₂ && duration₁.same duration₂
  | .poly coefficients₁ duration₁, .poly coefficients₂ duration₂ =>
    sameScalars coefficients₁ coefficients₂ && duration₁.same duration₂
  | .native name₁ function₁ duration₁ parameters₁, .native name₂ function₂ duration₂ parameters₂ =>
    name₁ == name₂ && function₁ == function₂ && duration₁.same duration₂ &&
      sameScalars parameters₁ parameters₂
  | .negative inner₁, .negative inner₂ => same inner₁ inner₂
  | .add left₁ right₁, .add left₂ right₂ => same left₁ left₂ && same right₁ right₂
  | .scale factor₁ inner₁, .scale factor₂ inner₂ => factor₁.same factor₂ && same inner₁ inner₂
  | .slice inner₁ interval₁, .slice inner₂ interval₂ =>
    interval₁.same interval₂ && same inner₁ inner₂
  | .append parts₁, .append parts₂ => sameAll parts₁ parts₂
  | .record name₁ inner₁ side₁, .record name₂ inner₂ side₂ =>
    name₁ == name₂ && side₁ == side₂ && same inner₁ inner₂
  | .sample inner₁ step₁ interpolation₁, .sample inner₂ step₂ interpolation₂ =>
    interpolation₁ == interpolation₂ && step₁.same step₂ && same inner₁ inner₂
  | .smooth inner₁ radius₁ kernel₁, .smooth inner₂ radius₂ kernel₂ =>
    kernel₁ == kernel₂ && radius₁.same radius₂ && same inner₁ inner₂
  | .aligned inner₁ alignment₁ fill₁, .aligned inner₂ alignment₂ fill₂ =>
    alignment₁ == alignment₂ && fill₁.same fill₂ && same inner₁ inner₂
  | _, _ => false

def sameAll : List Waveform → List Waveform → Bool
  | [], [] => true
  | left :: lefts, right :: rights => same left right && sameAll lefts rights
  | _, _ => false

end

open Fingerprint in
mutual

/-- The fingerprint of a waveform; equal waveforms have equal ones. -/
def fingerprint : Waveform → UInt64
  | .constant value duration =>
    mixAll (seed "constant") [value.fingerprint, duration.fingerprint]
  | .ramp start stop duration =>
    mixAll (seed "linear") [start.fingerprint, stop.fingerprint, duration.fingerprint]
  | .poly coefficients duration =>
    mix (mixAll (seed "poly") (Scalar.fingerprints coefficients)) duration.fingerprint
  | .native name _ duration parameters =>
    mixAll (mixAll (seed "native") [ofText name, duration.fingerprint])
      (Scalar.fingerprints parameters)
  | .negative inner => mix (seed "negative") (fingerprint inner)
  | .add left right => mixAll (seed "add") [fingerprint left, fingerprint right]
  | .scale factor inner => mixAll (seed "scale") [factor.fingerprint, fingerprint inner]
  | .slice inner interval => mixAll (seed "slice") [fingerprint inner, interval.fingerprint]
  | .append parts => mixAll (seed "append") (fingerprints parts)
  | .record name inner side =>
    mixAll (seed "record") [ofText name, fingerprint inner, side.code]
  | .sample inner step interpolation =>
    mixAll (seed "sample") [fingerprint inner, step.fingerprint, interpolation.code]
  | .smooth inner radius kernel =>
    mixAll (seed "smooth") [fingerprint inner, radius.fingerprint, kernel.code]
  | .aligned inner alignment fill =>
    mixAll (seed "aligned") [fingerprint inner, alignment.code, fill.fingerprint]

def fingerprints : List Waveform → List UInt64
  | [] => []
  | part :: rest => fingerprint part :: fingerprints rest

end

mutual

def toTerm : Waveform → Term
  | .constant value duration => .tagged "constant" [value.toTerm, duration.toTerm]
  | .ramp start stop duration => .tagged "linear" [start.toTerm, stop.toTerm, duration.toTerm]
  | .poly coefficients duration =>
    .tagged "poly" [.list (Scalar.toTerms coefficients), duration.toTerm]
  | .native name _ duration parameters =>
    .tagged "native" (.symbol name :: duration.toTerm :: Scalar.toTerms parameters)
  | .negative inner => .tagged "-" [toTerm inner]
  | .add left right => .tagged "+" [toTerm left, toTerm right]
  | .scale factor inner => .tagged "*" [factor.toTerm, toTerm inner]
  | .slice inner interval =>
    .tagged "slice" [toTerm inner, Scalar.boundTerm interval.start, Scalar.boundTerm interval.stop]
  | .append parts => .tagged "append" (toTerms parts)
  | .record name inner side => .tagged "record" [.symbol name, toTerm inner, .symbol side.name]
  | .sample inner step interpolation =>
    .tagged "sample" [toTerm inner, step.toTerm, .symbol interpolation.name]
  | .smooth inner radius kernel =>
    .tagged "smooth" [toTerm inner, radius.toTerm, .symbol kernel.name]
  | .aligned inner alignment fill =>
    .tagged "aligned" [toTerm inner, .symbol alignment.name, fill.toTerm]

def toTerms : List Waveform → List Term
  | [] => []
  | part :: rest => toTerm part :: toTerms rest

end

def text (waveform : Waveform) : String := waveform.toTerm.render false

def children : Waveform → List Waveform
  | .constant .. => []
  | .ramp .. => []
  | .poly .. => []
  | .native .. => []
  | .negative inner => [inner]
  | .add left right => [left, right]
  | .scale _ inner => [inner]
  | .slice inner _ => [inner]
  | .append parts => parts
  | .record _ inner _ => [inner]
  | .sample inner _ _ => [inner]
  | .smooth inner _ _ => [inner]
  | .aligned inner _ _ => [inner]

/-- The scalars that stand directly in a waveform, and not in its children. -/
def scalars : Waveform → List Scalar
  | .constant value duration => [value, duration]
  | .ramp start stop duration => [start, stop, duration]
  | .poly coefficients duration => coefficients ++ [duration]
  | .native _ _ duration parameters => duration :: parameters
  | .negative _ => []
  | .add _ _ => []
  | .scale factor _ => [factor]
  | .slice _ interval => interval.bounds
  | .append _ => []
  | .record _ _ _ => []
  | .sample _ step _ => [step]
  | .smooth _ radius _ => [radius]
  | .aligned _ _ fill => fill.scalars

mutual

def nodes : Waveform → List Waveform
  | .constant value duration => [.constant value duration]
  | .ramp start stop duration => [.ramp start stop duration]
  | .poly coefficients duration => [.poly coefficients duration]
  | .native name function duration parameters => [.native name function duration parameters]
  | .negative inner => .negative inner :: nodes inner
  | .add left right => .add left right :: (nodes left ++ nodes right)
  | .scale factor inner => .scale factor inner :: nodes inner
  | .slice inner interval => .slice inner interval :: nodes inner
  | .append parts => .append parts :: nodesAll parts
  | .record name inner side => .record name inner side :: nodes inner
  | .sample inner step interpolation => .sample inner step interpolation :: nodes inner
  | .smooth inner radius kernel => .smooth inner radius kernel :: nodes inner
  | .aligned inner alignment fill => .aligned inner alignment fill :: nodes inner

def nodesAll : List Waveform → List Waveform
  | [] => []
  | part :: rest => nodes part ++ nodesAll rest

end

/-- The formal degree of a polynomial; without coefficients it is -1. -/
def degree? : Waveform → Option Int
  | .poly coefficients _ => some ((coefficients.length : Int) - 1)
  | _ => none

end Waveform

end Analog
