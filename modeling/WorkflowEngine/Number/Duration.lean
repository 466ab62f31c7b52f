import WorkflowEngine.Number.Decimal

/-! Durations.

A duration is a whole number of nanoseconds. A number of seconds is rounded to the nearest
nanosecond, a half going to the even one; negative numbers and numbers from `2 ^ 64` on are refused.
-/

set_option autoImplicit false

namespace WorkflowEngine

abbrev Nanoseconds := Nat

inductive DurationFault where
  | negative
  | outOfRange
  deriving DecidableEq

def DurationFault.message : DurationFault → String
  | .negative => "cannot convert float seconds to Duration: value is negative"
  | .outOfRange => "cannot convert float seconds to Duration: value is either too big or NaN"

namespace Nanoseconds

def perMillisecond : Nat := Nat.pow 10 6

def perSecond : Nat := Nat.pow 10 9

def ofMilliseconds (count : Nat) : Nanoseconds := count * perMillisecond

/-- Whole milliseconds, an incomplete one counted as one. -/
def milliseconds (duration : Nanoseconds) : Nat :=
  (duration + (perMillisecond - 1)) / perMillisecond

def ofSeconds : Binary64 → Except DurationFault Nanoseconds
  | .finite negative units =>
    if negative && units != 0 then .error .negative
    else if Nat.pow 2 64 * Binary64.one ≤ units then .error .outOfRange
    else .ok (nearestWhole (units * perSecond) Binary64.one)
  | .infinite negative => .error (if negative then .negative else .outOfRange)
  | .notANumber => .error .outOfRange

end Nanoseconds

end WorkflowEngine
