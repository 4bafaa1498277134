import Analog.KeyedMap
import Analog.Waveform

/-!
# Remembered results

Simplifying a program remembers the canonical form of every scalar and waveform it has met,
so that a part that occurs again is not worked on again. What has been remembered stays
so when the work fails.
-/

set_option autoImplicit false

namespace Analog

instance : Keyed Scalar := ⟨Scalar.same, Scalar.fingerprint⟩

instance : Keyed Waveform := ⟨Waveform.same, Waveform.fingerprint⟩

namespace Canonical

structure Memo where
  scalars : KeyedMap Scalar Scalar := .empty
  waveforms : KeyedMap Waveform Waveform := .empty

abbrev Simplifying := ExceptT Failure (StateM Memo)

def lift {α : Type} (outcome : Outcome α) : Simplifying α :=
  fun memo => (outcome, memo)

/-- Does the work on a node unless its result is known, and keeps the result, which is its own
canonical form. The parts of the node are worked on first, and may bring its result. -/
def remembering {α β : Type} (known? : Memo → Option β) (keep : β → Memo → Memo)
    (parts : Simplifying α) (simplify : α → Simplifying β) : Simplifying β := do
  match known? (← get) with
  | some known => return known
  | none =>
    let canonicalParts ← parts
    match known? (← get) with
    | some known => return known
    | none =>
      let result ← simplify canonicalParts
      modify (keep result)
      return result

def keepScalar (scalar result : Scalar) (memo : Memo) : Memo :=
  { memo with scalars := (memo.scalars.insert scalar result).insert result result }

def keepWaveform (waveform result : Waveform) (memo : Memo) : Memo :=
  { memo with waveforms := (memo.waveforms.insert waveform result).insert result result }

def rememberScalar {α : Type} (scalar : Scalar) (parts : Simplifying α)
    (simplify : α → Simplifying Scalar) : Simplifying Scalar :=
  remembering (·.scalars.find? scalar) (keepScalar scalar) parts simplify

def rememberWaveform {α : Type} (waveform : Waveform) (parts : Simplifying α)
    (simplify : α → Simplifying Waveform) : Simplifying Waveform :=
  remembering (·.waveforms.find? waveform) (keepWaveform waveform) parts simplify

def afresh {α : Type} (work : Simplifying α) : Outcome α :=
  (work.run {}).1

end Canonical

end Analog
