import EffectFibers.Duration

/-!
# Durations as seconds in floating point

Delays that grow by a real factor are computed in seconds.  A duration becomes the float of its
whole seconds plus the float of its fraction; a float becomes the duration nearest to it, a tie
going to the even nanosecond, and everything that is negative, too long or not a number becomes
the longest duration.

The way back works on the exact value of the float, an integer times a power of two, so nothing
is rounded but the final result.
-/

namespace EffectFibers

/-- The seconds of a duration as a float. -/
def Duration.toSeconds (d : Duration) : Float :=
  (UInt64.ofNat d.secs).toFloat + (UInt64.ofNat d.subsecNanos).toFloat / 1000000000.0

/-- The quotient rounded to the nearest integer, a tie to the even one. -/
def roundHalfEven (num den : Nat) : Nat :=
  let q := num / den
  let twice := 2 * (num % den)
  if twice < den then q
  else if den < twice then q + 1
  else if q % 2 = 0 then q else q + 1

/-- The duration nearest to a number of seconds. -/
def Duration.ofSeconds (x : Float) : Duration :=
  let bits := x.toBits.toNat
  let negative := bits / (1 <<< 63) = 1
  let exponent := bits / (1 <<< 52) % (1 <<< 11)
  let fraction := bits % (1 <<< 52)
  if exponent = 2047 then .longest
  else if negative then (if exponent = 0 ∧ fraction = 0 then .zero else .longest)
  else
    let mantissa := if exponent = 0 then fraction else fraction + (1 <<< 52)
    let shift := if exponent = 0 then 1 else exponent
    if 1075 ≤ shift then .ofNanos (mantissa * (1 <<< (shift - 1075)) * 1000000000)
    else .ofNanos (roundHalfEven (mantissa * 1000000000) (1 <<< (1075 - shift)))

/-- Repeated squaring: the power by a natural exponent, multiplied from the low bit up. -/
def powBits : Nat → Float → Float → Nat → Float
  | 0, acc, _, _ => acc
  | steps + 1, acc, base, n =>
    let acc := if n % 2 = 1 then acc * base else acc
    if n / 2 = 0 then acc else powBits steps acc (base * base) (n / 2)

/-- A float to the power of a natural number below two to the 64th. -/
def floatPow (x : Float) (n : Nat) : Float := powBits 64 1.0 x n

end EffectFibers
