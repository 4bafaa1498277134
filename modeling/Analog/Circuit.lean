import Analog.Register.Tiling
import Analog.Sequence

/-!
# Circuits

A circuit is a sequence together with the sites that it drives.
-/

set_option autoImplicit false

namespace Analog

structure Circuit where
  layout : Layout
  sequence : Sequence

namespace Circuit

def fingerprint (circuit : Circuit) : UInt64 :=
  Fingerprint.mixAll (Fingerprint.seed "circuit")
    [circuit.layout.fingerprint, circuit.sequence.fingerprint]

def text (circuit : Circuit) : String :=
  "(circuit " ++ circuit.layout.text ++ " " ++ circuit.sequence.text ++ ")"

def same (left right : Circuit) : Bool :=
  left.layout == right.layout && left.sequence.same right.sequence

end Circuit

end Analog
