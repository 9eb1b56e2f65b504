/-!
# Durations

A duration is a whole number of nanoseconds between zero and `Duration.longest`, the longest span
that fits a 64-bit number of seconds.  Sums and products that would be longer stop at the
longest duration.

## Main definitions

* `Duration` – the span, with its bound.
* `Duration.debug` – the shortest text in seconds, milliseconds, microseconds or nanoseconds.
-/

namespace EffectFibers

/-- The number of nanoseconds in the longest duration. -/
def maxNanos : Nat := ((1 <<< 64) - 1) * 1000000000 + 999999999

/-- A span of time in nanoseconds. -/
structure Duration where
  nanos : Nat
  le_max : nanos ≤ maxNanos
  deriving DecidableEq

namespace Duration

/-- The duration of that many nanoseconds, or the longest one. -/
def ofNanos (n : Nat) : Duration := ⟨min n maxNanos, Nat.min_le_right _ _⟩

def ofMicros (n : Nat) : Duration := ofNanos (n * 1000)

def ofMillis (n : Nat) : Duration := ofNanos (n * 1000000)

def ofSecs (n : Nat) : Duration := ofNanos (n * 1000000000)

def zero : Duration := ⟨0, Nat.zero_le _⟩

/-- The longest duration. -/
def longest : Duration := ⟨maxNanos, Nat.le_refl _⟩

instance : Inhabited Duration := ⟨zero⟩

def isZero (d : Duration) : Bool := d.nanos == 0

/-- Whole seconds. -/
def secs (d : Duration) : Nat := d.nanos / 1000000000

/-- Nanoseconds past the whole second. -/
def subsecNanos (d : Duration) : Nat := d.nanos % 1000000000

/-- Whole milliseconds. -/
def millis (d : Duration) : Nat := d.nanos / 1000000

/-- The longer of two. -/
def longer (a b : Duration) : Duration := if a.nanos ≤ b.nanos then b else a

/-- The shorter of two. -/
def shorter (a b : Duration) : Duration := if a.nanos ≤ b.nanos then a else b

/-- A multiple, or the longest duration. -/
def times (d : Duration) (k : Nat) : Duration := ofNanos (d.nanos * k)

/-! ## Text -/

/-- The digits of a fraction of `width` decimal places, without zeros at its end. -/
def fractionDigits (width n : Nat) : String :=
  let digits := (List.replicate (width - (toString n).length) '0') ++ (toString n).toList
  String.ofList (digits.reverse.dropWhile (· == '0')).reverse

/-- A whole part, a fraction of `width` places if it is not zero, and the unit. -/
def decimal (whole fraction width : Nat) (unit : String) : String :=
  if fraction = 0 then toString whole ++ unit
  else toString whole ++ "." ++ fractionDigits width fraction ++ unit

/-- The text in the largest unit of which the duration holds at least one. -/
def debug (d : Duration) : String :=
  if 1000000000 ≤ d.nanos then decimal d.secs d.subsecNanos 9 "s"
  else if 1000000 ≤ d.nanos then decimal (d.nanos / 1000000) (d.nanos % 1000000) 6 "ms"
  else if 1000 ≤ d.nanos then decimal (d.nanos / 1000) (d.nanos % 1000) 3 "µs"
  else decimal d.nanos 0 0 "ns"

/-! ## Comparing durations by their nanoseconds -/

theorem ext_nanos {a b : Duration} (h : a.nanos = b.nanos) : a = b := by
  cases a
  cases b
  simpa using h

theorem nanos_longer (a b : Duration) : (a.longer b).nanos = max a.nanos b.nanos := by
  unfold longer
  split <;> omega

theorem nanos_shorter (a b : Duration) : (a.shorter b).nanos = min a.nanos b.nanos := by
  unfold shorter
  split <;> omega

theorem nanos_times (d : Duration) (k : Nat) :
    (d.times k).nanos = min (d.nanos * k) maxNanos := rfl

end Duration

end EffectFibers
