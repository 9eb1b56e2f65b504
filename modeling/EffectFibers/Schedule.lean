import EffectFibers.Duration.Seconds
import EffectFibers.Cause

/-!
# Schedules

A schedule is a pure policy for doing something again: from the number of the attempt, counted
from zero, and the latest input it decides whether to go on, and after what delay.  Retrying feeds
it failures, repeating feeds it values.  Consulting a schedule never looks at a clock; whoever
follows it does the waiting.

## Main definitions

* `Schedule α` – the expressions that schedules are built from.
* `Schedule.decide` – the decision at an attempt.
* `Schedule.delays` – the delays for a constant input, up to the first stop.
-/

namespace EffectFibers

/-- Attempts are counted in 32 bits; a later attempt has the last number. -/
def maxAttempt : Nat := (1 <<< 32) - 1

/-- What a schedule says about an attempt. -/
inductive Decision
  | again (delay : Duration)
  | stop
  deriving DecidableEq

namespace Decision

/-- The delay before going on, if the schedule goes on. -/
def delay? : Decision → Option Duration
  | .again delay => some delay
  | .stop => none

/-- Go on only if both do, after the longer delay. -/
def both : Decision → Decision → Decision
  | .again a, .again b => .again (a.longer b)
  | _, _ => .stop

/-- Go on if one of them does, after the shorter delay of those that do. -/
def either : Decision → Decision → Decision
  | .again a, .again b => .again (a.shorter b)
  | .again a, .stop => .again a
  | .stop, d => d

/-- Wait at most that long. -/
def upTo (limit : Duration) : Decision → Decision
  | .again delay => .again (delay.shorter limit)
  | .stop => .stop

end Decision

/-- A policy over inputs of type `α`.  Its predicates and functions are user code and may
break off. -/
inductive Schedule (α : Type)
  /-- Go on at once for the attempts below a number. -/
  | recurs (attempts : Nat)
  /-- Always go on, after the same delay. -/
  | fixed (delay : Duration)
  /-- Always go on, after delays in the proportion of the Fibonacci numbers. -/
  | fibonacci (base : Duration)
  /-- Always go on, after delays that grow by a factor. -/
  | exponential (base : Duration) (factor : Float)
  /-- Go on at once while the input satisfies a predicate. -/
  | whileInput (holds : α → Except Panic Bool)
  /-- Any other function. -/
  | ofFunction (decide : Nat → α → Except Panic Decision)
  | intersect (first second : Schedule α)
  | union (first second : Schedule α)
  | upToDelay (schedule : Schedule α) (limit : Duration)

namespace Schedule

variable {α : Type}

/-- Always go on, after the same delay. -/
def spaced (delay : Duration) : Schedule α := .fixed delay

/-- Always go on at once. -/
def forever : Schedule α := .fixed .zero

/-! ## Growing delays -/

/-- The largest Fibonacci number that is computed. -/
def fibonacciCap : Nat := (1 <<< 64) - 1

/-- Two neighbouring Fibonacci numbers after some more steps; a number beyond the cap stays at
the cap, and there the computation ends. -/
def fibonacciPair : Nat → Nat × Nat → Nat × Nat
  | 0, pair => pair
  | steps + 1, (previous, current) =>
    let next := min (previous + current) fibonacciCap
    if next = fibonacciCap then (current, next) else fibonacciPair steps (current, next)

/-- The factor of the base delay at an attempt: a Fibonacci number, as far as 32 bits go. -/
def fibonacciFactor (attempt : Nat) : Nat :=
  min (fibonacciPair (attempt - 1) (1, 1)).2 ((1 <<< 32) - 1)

/-- The multiple of the base by the Fibonacci factor of an attempt. -/
def fibonacciDelay (base : Duration) (attempt : Nat) : Duration :=
  base.times (fibonacciFactor attempt)

/-- The base times the factor to the power of the attempt; the power has 31 bits. -/
def exponentialDelay (base : Duration) (factor : Float) (attempt : Nat) : Duration :=
  .ofSeconds (base.toSeconds * floatPow factor (min attempt ((1 <<< 31) - 1)))

/-! ## Decisions -/

/-- The decision at an attempt.  Of a combined schedule both parts are consulted, the first one
first. -/
def decide : Schedule α → Nat → α → Except Panic Decision
  | .recurs n, attempt, _ => .ok (if attempt < n then .again .zero else .stop)
  | .fixed delay, _, _ => .ok (.again delay)
  | .fibonacci base, attempt, _ => .ok (.again (fibonacciDelay base attempt))
  | .exponential base factor, attempt, _ => .ok (.again (exponentialDelay base factor attempt))
  | .whileInput holds, _, input => do
    return if ← holds input then .again .zero else .stop
  | .ofFunction f, attempt, input => f attempt input
  | .intersect first second, attempt, input => do
    let a ← first.decide attempt input
    let b ← second.decide attempt input
    return a.both b
  | .union first second, attempt, input => do
    let a ← first.decide attempt input
    let b ← second.decide attempt input
    return a.either b
  | .upToDelay schedule limit, attempt, input => do
    return (← schedule.decide attempt input).upTo limit

/-- The delays from an attempt on, at most `count` of them, up to the first stop. -/
def delaysFrom (s : Schedule α) (input : α) : Nat → Nat → Except Panic (List Duration)
  | _, 0 => .ok []
  | attempt, count + 1 => do
    match ← s.decide attempt input with
    | .stop => return []
    | .again delay => return delay :: (← s.delaysFrom input (attempt + 1) count)

/-- The delays for a constant input, up to the first stop and for at most `limit` attempts. -/
def delays (s : Schedule α) (input : α) (limit : Nat) : Except Panic (List Duration) :=
  s.delaysFrom input 0 limit

/-- The decision on an input that may not be one: a schedule stops at inputs it does not know. -/
def decide? (s : Schedule α) (attempt : Nat) (input : Option α) : Except Panic Decision :=
  match input with
  | some a => s.decide attempt a
  | none => .ok .stop

/-- The number of the attempt that follows. -/
def nextAttempt (attempt : Nat) : Nat := min (attempt + 1) maxAttempt

def debug (_ : Schedule α) : String := "Schedule(..)"

end Schedule

end EffectFibers
