import Analog.Decimal.Text
import Analog.Text.Quoted
import Analog.Text.Source

/-!
# Failures

Every way in which work on a program can end without a result. A failure is a cause
with the data it needs; the wording of all of them stands in `Failure.message` and the
functions it uses. Eight causes have a kind of their own, the others have none.

An abort is a failure of another nature: it stands for work that stops without being
able to say what the program did wrong.
-/

set_option autoImplicit false

namespace Analog

/-- The forms into which a waveform can be lowered. -/
inductive Target where
  | linear
  | constant
  deriving DecidableEq

def Target.name : Target → String
  | .linear => "piecewise-linear"
  | .constant => "piecewise-constant"

def Target.word : Target → String
  | .linear => "linear"
  | .constant => "constant"

def Target.ofWord? (text : String) : Option Target :=
  [Target.linear, .constant].find? (·.word == text)

/-- What a name stands for: one number, or one number for every site. -/
inductive BoundValue where
  | scalar (value : Decimal)
  | vector (values : List Decimal)

def vectorText (values : List Decimal) : String :=
  "[" ++ " ".intercalate (values.map Decimal.toText) ++ "]"

def BoundValue.text : BoundValue → String
  | .scalar value => value.toText
  | .vector values => vectorText values

/-- What is wrong with a malformed expression, waveform or series. -/
inductive Defect where
  | negativeStart (start : Decimal)
  | negativeStop (stop : Decimal)
  | startAfterStop (start stop : Decimal)
  | stopBeyondExtent (stop extent : Decimal)
  | minimumOfNone
  | maximumOfNone
  | negativeDuration (duration : Decimal)
  | stepNotPositive (step : Decimal)
  | wrongVectorLength (values sites : Nat)
  | siteOutside (site sites : Nat)
  | noBreakpoints
  | unequalCounts (times values : Nat)
  | lateStart (time : Decimal)
  | notIncreasing (time : Decimal)
  | invalidCut (start stop duration : Decimal)

def Defect.text : Defect → String
  | negativeStart start => "negative start " ++ start.toText
  | negativeStop stop => "negative stop " ++ stop.toText
  | startAfterStop start stop => "start " ++ start.toText ++ " after stop " ++ stop.toText
  | stopBeyondExtent stop extent =>
    "stop " ++ stop.toText ++ " exceeds duration " ++ extent.toText
  | minimumOfNone => "minimum of no operands"
  | maximumOfNone => "maximum of no operands"
  | negativeDuration duration => "negative duration " ++ duration.toText
  | stepNotPositive step => "sample step " ++ step.toText ++ " is not positive"
  | wrongVectorLength values sites =>
    toString values ++ " values given for register of " ++ toString sites ++ " sites"
  | siteOutside site sites =>
    "site " ++ toString site ++ " out of bounds for register of " ++ toString sites ++ " sites"
  | noBreakpoints => "series has no breakpoints"
  | unequalCounts times values =>
    "series has " ++ toString times ++ " times but " ++ toString values ++ " values"
  | lateStart time => "series starts at " ++ time.toText ++ " (not zero)"
  | notIncreasing time => "series times not increasing at " ++ time.toText
  | invalidCut start stop duration =>
    "invalid slice [" ++ start.toText ++ "," ++ stop.toText ++ ") of series with duration " ++
      duration.toText

/-- Why a waveform has no form of the wanted kind. -/
inductive Obstacle where
  | highDegree
  | native (name : String)
  | interpolation (name : String)
  | smoothed
  | risingPiece
  | varyingPiece

def Obstacle.text (target : Target) : Obstacle → String
  | highDegree => "polynomial of degree > 1 cannot become piecewise-linear"
  | native name => "native function " ++ name ++ " must be sampled first"
  | interpolation name => name ++ " interpolation cannot become " ++ target.name
  | smoothed => "smoothed waveform must be sampled first"
  | risingPiece => "found non-constant Linear piece"
  | varyingPiece => "found non-constant Poly piece"

/-- Work that stops without a verdict on the program. -/
inductive Abort where
  /-- Something that the work relies on is not there. -/
  | missing
  | decimalDivision
  | notFinite (name : String)
  | siteOutside (site : Nat)
  | wrongColumnCount
  | invertedSpan (start stop : Nat)
  | peekOutside
  | popFromEmpty
  | popBeyondBottom
  /-- A value was demanded of something that has none. -/
  | demanded (reason : String)

def Abort.text? : Abort → Option String
  | missing => none
  | decimalDivision => some "decimal division by 0"
  | notFinite name => some ("Cannot create a Decimal from " ++ name)
  | siteOutside site => some ("site " ++ toString site ++ " out of bounds")
  | wrongColumnCount => some "incorrect number of columns"
  | invertedSpan start stop => some ("inverted span " ++ toString start ++ "-" ++ toString stop)
  | peekOutside => some "peek out-of-bounds"
  | popFromEmpty => some "cannot pop from empty stack"
  | popBeyondBottom => some "cannot pop beyond bottom of stack"
  | demanded reason => some reason

inductive FileError where
  | notFound (path : String)
  | isDirectory (path : String)
  | notDirectory (path : String)

def FileError.message : FileError → String
  | notFound path => "open " ++ path ++ ": no such file or directory"
  | isDirectory path => "read " ++ path ++ ": is a directory"
  | notDirectory path => "open " ++ path ++ ": not a directory"

inductive Failure where
  | malformed (subject : String) (defect : Defect)
  | unbound (scalars vectors : List String)
  | reassigned (name : String) (existing attempted : BoundValue)
  | discontinuity (time : Decimal) (left : String) (leftValue : Decimal) (right : String)
      (rightValue : Decimal) (bindings : List (String × Decimal))
  | unsupported (construct : String) (target : Target) (obstacle : Obstacle)
  | divisionByZero (expression : String)
  | unserializable (node : String)
  | outOfBounds (channel : String) (time value lower upper : Decimal)
  | misread (error : Text.SyntaxError)
  | notDecimal (error : Decimal.TextError)
  | notScalar (value kind : String)
  | spacingNotPositive (spacing : Decimal)
  | emptyRegister
  | doesNotFit (extentX extentY width height : Decimal)
  | alreadyTiled
  | noArea
  | repeatedArgument (name : String)
  | vectorArgument (name : String)
  | boundArgument (name : String)
  | argumentCount (expected found : Nat)
  | expectedNumber (line : Nat)
  | invalidNumber (line : Nat) (text : String)
  | expectedNumbers (line : Nat)
  | malformedDocument
  | endOfDocument
  | unreadable (error : FileError)
  | noProgram (path : String)
  | within (context : String) (cause : Failure)
  | abort (cause : Abort)

/-- The kinds of failure that a program's author is told apart. -/
inductive FailureKind where
  | unknown
  | malformed
  | unbound
  | reassignment
  | discontinuity
  | unsupported
  | divisionByZero
  | unserializable
  | outOfBounds
  deriving DecidableEq

def FailureKind.name : FailureKind → String
  | unknown => "unknown"
  | malformed => "malformed expression"
  | unbound => "unbound variable"
  | reassignment => "reassignment conflict"
  | discontinuity => "discontinuity"
  | unsupported => "unsupported construct"
  | divisionByZero => "division by zero"
  | unserializable => "serialization unsupported"
  | outOfBounds => "bounds violation"

namespace Failure

/-- The kind of a failure, whatever context is put around it. -/
def kind : Failure → FailureKind
  | malformed .. => .malformed
  | unbound .. => .unbound
  | reassigned .. => .reassignment
  | discontinuity .. => .discontinuity
  | unsupported .. => .unsupported
  | divisionByZero .. => .divisionByZero
  | unserializable .. => .unserializable
  | outOfBounds .. => .outOfBounds
  | within _ cause => cause.kind
  | _ => .unknown

/-- The complaint about a source text that a failure consists of, if it does. -/
def syntaxError? : Failure → Option Text.SyntaxError
  | misread error => some error
  | within _ cause => cause.syntaxError?
  | _ => none

def abort? : Failure → Option Abort
  | abort cause => some cause
  | within _ cause => cause.abort?
  | _ => none

/-- Whether a failure comes from a document that could not be understood. -/
def isMalformedDocument : Failure → Bool
  | malformedDocument => true
  | within _ cause => cause.isMalformedDocument
  | _ => false

def bindingText (binding : String × Decimal) : String :=
  " " ++ binding.1 ++ " = " ++ binding.2.toText

def message : Failure → String
  | malformed subject defect =>
    if subject.isEmpty then "malformed expression: " ++ defect.text
    else "malformed expression " ++ subject ++ ": " ++ defect.text
  | unbound scalars vectors =>
    "missing assignment for variables: [" ++ ", ".intercalate (scalars ++ vectors) ++ "]"
  | reassigned name existing attempted =>
    "variable " ++ name ++ " already assigned to " ++ existing.text ++ " (cannot assign " ++
      attempted.text ++ ")"
  | discontinuity time left leftValue right rightValue bindings =>
    "discontinuity at time " ++ time.toText ++ ": left " ++ left ++ " = " ++ leftValue.toText ++
      ", right " ++ right ++ " = " ++ rightValue.toText ++
      (if bindings.isEmpty then "" else " where" ++ ",".intercalate (bindings.map bindingText))
  | unsupported construct target obstacle =>
    "cannot lower " ++ construct ++ " to " ++ target.name ++ ": " ++ obstacle.text target
  | divisionByZero expression => "division by zero in " ++ expression
  | unserializable node => "cannot serialize native code: " ++ node
  | outOfBounds channel time value lower upper =>
    channel ++ " takes value " ++ value.toText ++ " at time " ++ time.toText ++
      " outside of permitted range [" ++ lower.toText ++ ", " ++ upper.toText ++ "]"
  | misread error => error.message
  | notDecimal error => error.message
  | notScalar value kind => "cannot cast " ++ value ++ " (" ++ kind ++ ") to scalar"
  | spacingNotPositive spacing => "cluster spacing " ++ spacing.toText ++ " must be positive"
  | emptyRegister => "cannot parallelize empty register"
  | doesNotFit extentX extentY width height =>
    "register of extent " ++ extentX.toText ++ " x " ++ extentY.toText ++
      " does not fit within " ++ width.toText ++ " x " ++ height.toText
  | alreadyTiled => "register is already tiled"
  | noArea => "tiling a register requires a capability area"
  | repeatedArgument name => "argument " ++ Text.quoted name ++ " given more than once"
  | vectorArgument name => "argument " ++ Text.quoted name ++ " is a vector"
  | boundArgument name => "argument " ++ Text.quoted name ++ " is already bound"
  | argumentCount expected found =>
    "expected " ++ toString expected ++ " arguments, found " ++ toString found
  | expectedNumber line => "line " ++ toString line ++ ": expected number"
  | invalidNumber line text =>
    "line " ++ toString line ++ ": invalid number " ++ Text.quoted text
  | expectedNumbers line => "line " ++ toString line ++ ": expected number or list of numbers"
  | malformedDocument => "yaml: malformed document"
  | endOfDocument => "EOF"
  | unreadable error => error.message
  | noProgram path => path ++ ": program is required"
  | within context cause => context ++ ": " ++ cause.message
  | abort cause => cause.text?.getD ""

end Failure

abbrev Outcome := Except Failure

/-- Puts context around a failure. An abort passes through as it is. -/
def Outcome.inContext {α : Type} (context : String) (outcome : Outcome α) : Outcome α :=
  match outcome with
  | .ok value => .ok value
  | .error failure =>
    if failure.abort?.isSome then .error failure else .error (.within context failure)

def Outcome.blame {α : Type} (subject : Unit → String) (result : Except Defect α) : Outcome α :=
  match result with
  | .ok value => .ok value
  | .error defect => .error (.malformed (subject ()) defect)

/-- Demands a value: a failure becomes an abort that gives its message. -/
def Outcome.demand {α : Type} (outcome : Outcome α) : Outcome α :=
  match outcome with
  | .ok value => .ok value
  | .error failure => .error (.abort (.demanded failure.message))

def Decimal.quotient (left right : Decimal) : Outcome Decimal :=
  match left.div? right with
  | some value => .ok value
  | none => .error (.abort .decimalDivision)

end Analog
