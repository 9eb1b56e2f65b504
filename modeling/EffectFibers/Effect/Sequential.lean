import EffectFibers.Effect

/-!
# Sequential combinators

Going on after a value, recovering from a failure, finalizers and resources, providing services,
and doing things again.

Combinators that take effects as operands need what the operands need.  A continuation is user
code that builds an effect when it is reached; what that effect needs is not seen here.
-/

namespace EffectFibers.Effect

variable {σ : Type}

/-! ## Going on -/

/-- Change the value. -/
def map (e : Effect σ) (f : Value → Action σ Value) : Effect σ :=
  { node := .flatMap e.node (expecting fun v => do Node.given (.ok (← f v)))
    requires := e.requires }

/-- Go on with the effect that the value leads to. -/
def flatMap (e : Effect σ) (k : Value → Action σ (Effect σ)) : Effect σ :=
  { node := .flatMap e.node (expecting fun v => do return (← k v).node)
    requires := e.requires }

/-- Look up a service and go on with the effect that it leads to. -/
def withService (t : Tag) (k : Value → Action σ (Effect σ)) : Effect σ := (service t).flatMap k

/-- Run one effect and then another, and keep the value of the second one. -/
def zipRight (e next : Effect σ) : Effect σ :=
  { node := .flatMap e.node fun _ => (pure next.node : Action σ (Node σ))
    requires := e.requires.union next.requires }

/-- A continuation that hands on a value which it was given, for a ticket. -/
def handOver (ticket : Ticket) (v : Value) : Value → Action σ (Node σ) := fun _ => do
  if ← Action.useTicket ticket then Node.given (.ok v)
  else return .die (.internal "one-shot continuation resumed twice")

/-- Run an effect that the value leads to, and keep the value. -/
def tap (e : Effect σ) (k : Value → Action σ (Effect σ)) : Effect σ :=
  { node := .flatMap e.node (expecting fun v => do
      let side ← k v
      return .flatMap side.node (handOver (← Action.freshTicket) v))
    requires := e.requires }

/-- Forget the value. -/
def asUnit (e : Effect σ) : Effect σ := e.map fun _ => pure .null

/-! ## Recovering -/

/-- Change the failure. -/
def mapError (e : Effect σ) (f : Failure → Action σ Failure) : Effect σ :=
  { node := .recover e.node (expectingFailure fun failure => do
      Node.given (.error (.fail (← f failure))))
    requires := e.requires }

/-- Recover from every failure. -/
def catchAll (e : Effect σ) (handler : Failure → Action σ (Effect σ)) : Effect σ :=
  { node := .recover e.node (expectingFailure fun failure => do return (← handler failure).node)
    requires := e.requires }

/-- Recover from failures by their tag; the first handler of a tag counts, and a failure without
a handler stays. -/
def catchTags (e : Effect σ) (handlers : List (String × (Failure → Action σ (Effect σ)))) :
    Effect σ :=
  { node := .recover e.node (expectingFailure fun failure =>
      match handlers.find? fun entry => entry.1 == failure.tag with
      | some (_, handler) => do return (← handler failure).node
      | none => Node.given (.error (.fail failure)))
    requires := e.requires }

/-- Recover from the failures of one tag. -/
def catchTag (e : Effect σ) (tag : String) (handler : Failure → Action σ (Effect σ)) : Effect σ :=
  e.catchTags [(tag, handler)]

/-- Turn a failure into a value. -/
def either (e : Effect σ) : Effect σ :=
  (e.map fun v => pure (.result (.ok v))).catchAll fun failure => do
    return { node := ← Node.given (.ok (.result (.error failure))) }

/-! ## Finalizers and resources -/

/-- Run a finalizer after the effect, on every path.  It runs with interrupts held back; its own
failure replaces a value, but not an earlier cause. -/
def ensuring (e finalizer : Effect σ) : Effect σ :=
  { node := .ensuring e.node finalizer.node
    requires := e.requires.union finalizer.requires }

/-- Hold interrupts back until the effect has ended. -/
def uninterruptible (e : Effect σ) : Effect σ :=
  { node := .uninterruptible e.node, requires := e.requires }

/-- Acquire a resource with interrupts held back, use it, and release it on every path.  Both
`use` and `release` are called inside the guarded region. -/
def acquireUseRelease (acquire : Effect σ) (use release : Value → Action σ (Effect σ)) :
    Effect σ :=
  acquire.uninterruptible.flatMap fun resource =>
    pure ((unit.flatMap fun _ => use resource).ensuring (unit.flatMap fun _ => release resource))

/-! ## Services -/

/-- Provide the exports of a layer.  The result needs what the effect needs besides them, and
what the layer itself needs. -/
def provide (e : Effect σ) (l : Layer σ) : Effect σ :=
  { node := .provide e.node l.plan l.exports.ids
    requires := (e.requires.without l.exports.ids).union l.requirements }

/-- Provide one service that exists already. -/
def provideService (e : Effect σ) (t : Tag) (service : Value) : Action σ (Effect σ) := do
  return e.provide (← Layer.succeed t service)

/-- Declare that a continuation needs a service. -/
def requiring (e : Effect σ) (t : Tag) : Effect σ :=
  { e with requires := e.requires.insert t.id t.name }

/-! ## Doing things again -/

/-- Run again after a failure, as the schedule says. -/
def retry (e : Effect σ) (s : Schedule Failure) : Effect σ :=
  { node := .retry e.node s, requires := e.requires }

/-- Run again after a failure, at once and at most that many times. -/
def retryN (e : Effect σ) (n : Nat) : Effect σ := e.retry (.recurs n)

/-- Run again after a value, as the schedule says, and keep the last value. -/
def repeating (e : Effect σ) (s : Schedule Value) : Effect σ :=
  { node := .repeated e.node s 0, requires := e.requires }

/-- Wait, and then run the effect. -/
def delay (e : Effect σ) (d : Duration) : Effect σ := (sleep d).zipRight e

/-- Run inside a named span of the log. -/
def withLogSpan (e : Effect σ) (label : String) : Effect σ :=
  { node := .span label e.node, requires := e.requires }

end EffectFibers.Effect
