/-!
# Structural fingerprints

Sixty-four bit fingerprints of trees, by the FNV-1a scheme: each byte is combined
by exclusive or and the running value multiplied by a fixed prime. A tree mixes a
tag that says what it is with the fingerprints of its parts.
-/

set_option autoImplicit false

namespace Analog.Fingerprint

def offset : UInt64 := 14695981039346656037

def prime : UInt64 := 1099511628211

def mixByte (running byte : UInt64) : UInt64 :=
  (running ^^^ byte) * prime

def ofText (text : String) : UInt64 :=
  text.toUTF8.toList.foldl (fun running byte => mixByte running byte.toUInt64) offset

def mix (running word : UInt64) : UInt64 :=
  ([0, 8, 16, 24, 32, 40, 48, 56] : List UInt64).foldl
    (fun running shift => mixByte running ((word >>> shift) &&& 0xff)) running

def mixAll (running : UInt64) (words : List UInt64) : UInt64 :=
  words.foldl mix running

/-- The start of a fingerprint for the given kind of thing. -/
def seed (tag : String) : UInt64 :=
  mix offset (ofText tag)

/-- Mixes in several words so that their order does not matter. -/
def unordered (running : UInt64) (words : List UInt64) : UInt64 :=
  mixAll running [UInt64.ofNat words.length, words.foldl (· + ·) 0, words.foldl (· ^^^ ·) 0]

def toHex (word : UInt64) : String :=
  let digits := Nat.toDigits 16 word.toNat
  String.ofList (List.replicate (16 - digits.length) '0' ++ digits)

end Analog.Fingerprint
