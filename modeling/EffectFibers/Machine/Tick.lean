import EffectFibers.Machine.Eval
import EffectFibers.Machine.Resume

/-!
# One tick

The machine has one worker.  In a tick it either takes the first runnable fiber and begins a
slice, or takes one step of the fiber whose slice it is.  A slice ends when the fiber waits, gives
way, has an exit, or has used up its budget; in the last case it goes to the back of the queue, and
a pending interrupt is noticed on the way, unless the step that comes next is to install a
finalizer or a region.

A wait that is over before the fiber parks costs nothing from the budget.

## Main definitions

* `Machine.dispatch` – begin a slice.
* `Machine.stepSlice` – one step of the fiber on the worker.
* `Machine.park` – put a waiting fiber to sleep.
* `Machine.tick` – one of the first two.
-/

namespace EffectFibers

variable {σ : Type}

/-- Whether a node puts up a guard that an interrupt at the end of a slice must not skip. -/
def Node.isGuard : Node σ → Bool
  | .ensuring .. | .uninterruptible _ => true
  | _ => false

namespace Machine

/-- How a fiber goes on when its wait has ended. -/
def afterWait (m : Machine σ) (f : FiberId) (run : RunState σ) (exit : Exit) : RunState σ :=
  { run with next := .done (if m.interruptPending f run then .interrupted else exit) }

/-- Begin the slice of the first runnable fiber. -/
def dispatch (m : Machine σ) : Machine σ :=
  match m.ready.pop with
  | none => m
  | some (f, ready) =>
    let m := { m with ready }
    match m.fiber? f with
    | none => m
    | some fiber =>
      match fiber.run with
      | none => m
      | some run =>
        let run := match fiber.input with
          | some exit => m.afterWait f run exit
          | none => run
        let m := m.modifyFiber f fun fiber => { fiber with run := none, input := none }
        { m with running := some { fiber := f, run, budget := m.stepBudget } }

/-- Put a fiber to sleep. -/
def suspend (m : Machine σ) (f : FiberId) (run : RunState σ) (pending : Pending σ) : Machine σ :=
  m.modifyFiber f fun fiber =>
    { fiber with run := some run, pending := some pending, status := .suspended }

/-- Put a fiber to sleep, unless its wait is over already or a pending interrupt ends it. -/
def park (m : Machine σ) (slice : Slice σ) (pending : Pending σ) : Machine σ :=
  let f := slice.fiber
  match (m.fiber? f).bind (·.input), pending with
  | some exit, _ =>
    let run := m.afterWait f slice.run exit
    let m := m.modifyFiber f fun fiber => { fiber with input := none }
    { m with running := some { slice with run } }
  | none, .group g => m.suspend f slice.run (.group g)
  | none, .wait w canceler =>
    if m.interruptPending f slice.run then
      let (won, m) := m.claim w
      if won then
        let run := { slice.run with next := .done .interrupted }
        { m.runCanceler f canceler with running := some { slice with run } }
      else m.suspend f slice.run (.wait w canceler)
    else m.suspend f slice.run (.wait w canceler)

/-- Put a fiber at the back of the queue. -/
def requeue (m : Machine σ) (f : FiberId) (run : RunState σ) : Machine σ :=
  (m.modifyFiber f fun fiber => { fiber with run := some run }).enqueue f

/-- Notice a pending interrupt at the end of a slice: it replaces an evaluation, but not one that
puts up a guard. -/
def observeAtRequeue (m : Machine σ) (f : FiberId) (run : RunState σ) : RunState σ :=
  match run.next with
  | .eval node =>
    if m.interruptPending f run && !node.isGuard then { run with next := .done .interrupted }
    else run
  | .done _ => run

/-- The step that comes next in a program. -/
def stepRun (m : Machine σ) (f : FiberId) (scope : ScopeId) (run : RunState σ) : StepResult σ :=
  match run.next with
  | .eval node => m.eval f scope run node
  | .done exit =>
    match run.stack with
    | [] => { control := .finish exit, run, machine := m }
    | frame :: stack => m.resumeFrame f scope { run with stack } frame exit

/-- Go on as a step has said. -/
def follow (m : Machine σ) (slice : Slice σ) (control : Control σ) : Machine σ :=
  match control with
  | .next step =>
    let run := { slice.run with next := step }
    if slice.budget - 1 = 0 then m.requeue slice.fiber (m.observeAtRequeue slice.fiber run)
    else { m with running := some { slice with run, budget := slice.budget - 1 } }
  | .yield step => m.requeue slice.fiber { slice.run with next := step }
  | .suspend pending => m.park slice pending
  | .finish exit => m.finish slice.fiber exit

/-- One step of the fiber on the worker. -/
def stepSlice (m : Machine σ) (slice : Slice σ) : Machine σ :=
  let scope := ((m.fiber? slice.fiber).map (·.scope)).getD .none
  let result := m.stepRun slice.fiber scope slice.run
  result.machine.follow { slice with run := result.run } result.control

/-- What the worker does next. -/
def tick (m : Machine σ) : Machine σ :=
  match m.running with
  | none => m.dispatch
  | some slice => { m with running := none }.stepSlice slice

/-- Tick until nothing can go on by itself, at most that often. -/
def ticks : Nat → Machine σ → Machine σ
  | 0, m => m
  | n + 1, m => if m.isIdle then m else ticks n m.tick

end Machine

end EffectFibers
