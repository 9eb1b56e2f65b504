import EffectFibers.Machine.Provide

/-!
# Handing an exit to a frame

The frame on top of the stack decides what an exit leads to.  Values go to continuations,
failures to handlers and retries; defects and interrupts pass all of these and meet only
finalizers and the ends of regions.

## Main definitions

* `Machine.resumeFrame` – what the frame on top does with an exit.
-/

namespace EffectFibers

variable {σ : Type}

/-- The exit after a finalizer: the earlier exit stays, but a finalizer that ends badly replaces a
value. -/
def Exit.afterFinalizer (earlier finalizer : Exit) : Exit :=
  match finalizer, earlier with
  | .ok _, earlier => earlier
  | .error cause, .ok _ => .error cause
  | .error _, .error first => .error first

/-- The number by which an attempt is reported; it has 32 bits. -/
def reportedAttempt (attempt : Nat) : Nat := (attempt + 1) % (1 <<< 32)

namespace Machine

/-- Do something after a delay; no delay is no wait. -/
def evalAfter (run : RunState σ) (d : Duration) (node : Node σ) : Control σ × RunState σ :=
  if d.isZero then (.eval node, run)
  else
    let next : Value → Action σ (Node σ) := fun _ => pure node
    (.eval (.sleep d), run.push (.flatMap next))

/-- A retried source has failed. -/
def resumeRetry (m : Machine σ) (f : FiberId) (run : RunState σ) (source : Node σ)
    (schedule : Schedule Failure) (attempt : Nat) (failure : Failure) : StepResult σ :=
  match schedule.decide? attempt failure.known? with
  | .ok (.again delay) =>
    let m := m.trace (.retrying f (reportedAttempt attempt) delay)
    let frame := Frame.retry source schedule (Schedule.nextAttempt attempt)
    let (control, run) := evalAfter (run.push frame) delay source
    { control, run, machine := m }
  | .ok .stop =>
    let m := m.trace (.retryExhausted f (reportedAttempt attempt))
    { control := .done (.error (.fail failure)), run, machine := m }
  | .error p => { control := .die (.ofPanic p), run, machine := m }

/-- The tree that a repeated source goes on with after a value. -/
def repeatAfter (source : Node σ) (schedule : Schedule Value) (attempt : Nat) (v : Value) :
    Action σ (Node σ) := do
  match ← Action.ofExcept (schedule.decide? attempt v.known?) with
  | .stop => Node.given (.ok v)
  | .again delay =>
    let again := Node.repeated source schedule (Schedule.nextAttempt attempt)
    if delay.isZero then return again
    else return .flatMap (.sleep delay) fun _ => (pure again : Action σ (Node σ))

/-- A finalizer has ended. -/
def resumeFinalizing (m : Machine σ) (f : FiberId) (run : RunState σ) (earlier exit : Exit) :
    StepResult σ :=
  let m := match exit with
    | .ok _ => m
    | .error cause => m.trace (.finalizerFailed f cause)
  { control := .done (Exit.afterFinalizer earlier exit), run := run.unshielded, machine := m }

/-- Hand an exit to a frame that was on top of the stack. -/
def resumeFrame (m : Machine σ) (f : FiberId) (scope : ScopeId) (run : RunState σ)
    (frame : Frame σ) (exit : Exit) : StepResult σ :=
  match frame, exit with
  | .flatMap next, .ok v => m.build run (next v)
  | .flatMap _, exit => { control := .done exit, run, machine := m }
  | .recover handler, .error (.fail failure) => m.build run (handler failure)
  | .recover _, exit => { control := .done exit, run, machine := m }
  | .ensuring finalizer, exit =>
    { control := .eval finalizer, run := run.shielded.push (.finalizing exit), machine := m }
  | .finalizing earlier, exit => m.resumeFinalizing f run earlier exit
  | .regionEnd, exit => { control := .done exit, run := run.unshielded, machine := m }
  | .restore context, exit =>
    { control := .done exit, run := { run with context }, machine := m }
  | .spanEnd, exit =>
    { control := .done exit, run := { run with spans := run.spans.tail }, machine := m }
  | .retry source schedule attempt, .error (.fail failure) =>
    m.resumeRetry f run source schedule attempt failure
  | .retry .., exit => { control := .done exit, run, machine := m }
  | .repeated source schedule attempt, .ok v =>
    m.build run (repeatAfter source schedule attempt v)
  | .repeated .., exit => { control := .done exit, run, machine := m }
  | .layers build, exit => m.resumeLayers f scope run build exit

end Machine

end EffectFibers
