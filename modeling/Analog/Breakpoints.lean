import Analog.Failure

/-!
# Breakpoints

Searching in increasing lists of times, and values on the line between two points.
-/

set_option autoImplicit false

namespace Analog.Breakpoints

/-- Halves the range `[low, high)` until it is empty. Times before `low` are at most `time`, and
times from `high` on are later. -/
def bisect (times : List Decimal) (time : Decimal) : (fuel low high : Nat) → Nat
  | 0, low, _ => low
  | fuel + 1, low, high =>
    if low < high then
      let middle := (low + high) / 2
      if times.getD middle 0 ≤ time then bisect times time fuel (middle + 1) high
      else bisect times time fuel low middle
    else low

/-- The index of the last time that is not later than the given one; zero if there is none. -/
def lastAtMost (times : List Decimal) (time : Decimal) : Nat :=
  bisect times time times.length 0 times.length - 1

/-- The least index in `[low, high)` that satisfies a monotone condition, or `high`. -/
def leastFrom (condition : Nat → Bool) : (fuel low high : Nat) → Nat
  | 0, low, _ => low
  | fuel + 1, low, high =>
    if low < high then
      let middle := (low + high) / 2
      if condition middle then leastFrom condition fuel low middle
      else leastFrom condition fuel (middle + 1) high
    else low

/-- The least index below `count` that satisfies a monotone condition, or `count`. -/
def least (count : Nat) (condition : Nat → Bool) : Nat :=
  leastFrom condition count 0 count

/-- The index of the segment in which a time lies; times before the first belong to segment
zero. -/
def segment (times : List Decimal) (time : Decimal) : Nat :=
  least times.length (fun index => decide (time < times.getD index 0)) - 1

/-- The value at `time` on the line through two points. Multiplication comes before division,
so that results stay exact where possible. -/
def between (time₀ value₀ time₁ value₁ time : Decimal) : Outcome Decimal := do
  let part ← ((value₁ - value₀) * (time - time₀)).quotient (time₁ - time₀)
  return value₀ + part

end Analog.Breakpoints
