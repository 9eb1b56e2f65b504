import EffectFibers.Duration

/-!
# Instants

An instant is a number of nanoseconds on a clock that holds a 63-bit number of seconds.  A timer
is set to an instant that lies a delay after now.  If the clock cannot represent that instant, the
timer is set to a year from now instead.
-/

namespace EffectFibers

/-- The last second that the clock can represent. -/
def clockLimit : Nat := (1 <<< 63) - 1

/-- The delay that stands in for one that the clock cannot represent. -/
def farDelay : Duration := .ofSecs (365 * 24 * 60 * 60)

/-- The instant that lies a delay after now, if the clock can represent it. -/
def instantAfter? (now : Nat) (d : Duration) : Option Nat :=
  let instant := now + d.nanos
  if instant / 1000000000 ≤ clockLimit then some instant else none

/-- The deadline of a timer that is set now. -/
def deadlineAfter (now : Nat) (d : Duration) : Nat :=
  (instantAfter? now d).getD (now + farDelay.nanos)

end EffectFibers
