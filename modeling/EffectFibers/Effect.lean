import EffectFibers.Layer

/-!
# Effects

An effect is a tree together with the services it needs.  Building and combining effects runs
nothing.  The requirements are those of the operands that are visible; what the result of a
continuation needs has to be declared with `Effect.requiring`.

## Main definitions

* `Effect σ` – a tree with its requirements.
* the constructors: values, causes, user code, callbacks, services, the clock and the log.
-/

namespace EffectFibers

/-- A tree of effects and the services it needs. -/
structure Effect (σ : Type) where
  node : Node σ
  requires : Requirements := .none

namespace Effect

variable {σ : Type}

def debug (e : Effect σ) : String :=
  Text.record "Effect" [("node", Text.quoted e.node.name), ("requires", e.requires.debug)]

/-- What a combinator does with a value: it goes on, unless the type is alien to it. -/
def expecting (k : Value → Action σ (Node σ)) (v : Value) : Action σ (Node σ) :=
  match v with
  | .alien => pure (.die .typeMismatch)
  | v => k v

/-- What a combinator does with a failure. -/
def expectingFailure (k : Failure → Action σ (Node σ)) (f : Failure) : Action σ (Node σ) :=
  match f with
  | .alien => pure (.die .typeMismatch)
  | f => k f

/-! ## Constructors -/

/-- Succeed with a value. -/
def succeed (v : Value) : Effect σ := { node := .succeed v }

/-- Succeed without a value. -/
def unit : Effect σ := succeed .null

/-- Fail with a declared failure. -/
def fail (f : Failure) : Effect σ := { node := .fail (.fail f) }

/-- Die with a defect. -/
def die (d : Defect) : Effect σ := { node := .die d }

/-- Run user code that has a value. -/
def sync (thunk : Action σ Value) : Effect σ :=
  { node := .sync (do return .ok (← thunk) : Action σ Exit) }

/-- Run user code that has a value or a failure. -/
def trySync (thunk : Action σ (Except Failure Value)) : Effect σ :=
  { node := .sync (do
      match ← thunk with
      | .ok v => return .ok v
      | .error f => return .error (.fail f) : Action σ Exit) }

/-- Register a callback and wait until it is called. -/
def asyncOp (register : WaitId → Action σ (Option (Cleanup σ))) : Effect σ :=
  { node := .async register }

/-- The exit of blocking work. -/
def blockingExit : Except Panic (Except Failure Value) → Exit
  | .ok (.ok v) => .ok v
  | .ok (.error f) => .error (.fail f)
  | .error p => .died (.ofPanic p)

/-- Run blocking work on a thread of its own, and wait for it.  Giving up the wait leaves the
thread alone. -/
def tryBlocking (work : Except Panic (Except Failure Value)) : Effect σ :=
  asyncOp fun wait => do
    Action.request (.resumeLater wait (blockingExit work))
    return none

/-- Wait for ever; only an interrupt ends it. -/
def never : Effect σ := asyncOp fun _ => pure none

/-- The service of a tag.  It is a defect if the context does not hold it. -/
def service (t : Tag) : Effect σ :=
  { node := .access fun c => (match c.get? t with
      | some v => Node.given (.ok v)
      | none => pure (.die (.missingService t.name)) : Action σ (Node σ))
    requires := .of t }

/-- The whole context. -/
def context : Effect σ :=
  { node := .access fun c => (Node.given (.ok (.context c)) : Action σ (Node σ)) }

/-- Wait for a while without keeping a worker busy. -/
def sleep (d : Duration) : Effect σ := { node := .sleep d }

/-- Let other fibers run. -/
def yieldNow : Effect σ := { node := .yield }

/-- Write a message to the log. -/
def logAt (level : Level) (message : String) : Effect σ := { node := .log level message }

/-- Write an ordinary message to the log. -/
def log (message : String) : Effect σ := logAt .info message

end Effect

end EffectFibers
