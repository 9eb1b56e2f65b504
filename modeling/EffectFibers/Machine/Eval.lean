import EffectFibers.Machine.Complete
import EffectFibers.Machine.Provide

/-!
# Evaluating a tree

To evaluate a node is to put what comes afterwards on the stack and to go on with the part that
comes first, or, for a leaf, to go on with an exit or to wait.

A pending interrupt is noticed before a node that waits, starts fibers or gives way.

## Main definitions

* `Node.isSuspensionPoint` – the nodes before which an interrupt is noticed.
* `Machine.eval` – one step of evaluation.
-/

namespace EffectFibers

variable {σ : Type}

/-- Whether an interrupt is noticed before a node. -/
def Node.isSuspensionPoint : Node σ → Bool
  | .async _ | .watch .. | .awaitBuild _ | .sleep _ | .race _ | .all .. | .fork _ | .yield => true
  | _ => false

namespace Machine

/-- Hand a callback to user code and wait for it. -/
def evalAsync (m : Machine σ) (f : FiberId) (run : RunState σ)
    (register : WaitId → Action σ (Option (Cleanup σ))) : StepResult σ :=
  let (w, m) := m.openWait f .callback
  match m.perform (register w) with
  | (.ok cleanup, machine) =>
    let canceler := match cleanup with
      | some cleanup => Canceler.code cleanup
      | none => .none
    { control := .suspend (.wait w canceler), run, machine }
  | (.error p, m) =>
    let (won, machine) := m.claim w
    let control := if won then .die (.ofPanic p) else .suspend (.wait w .none)
    { control, run, machine }

/-- Wait for the end of a fiber. -/
def evalWatch (m : Machine σ) (f : FiberId) (run : RunState σ) (target : FiberId) (how : Watch) :
    StepResult σ :=
  let (w, m) := m.openWait f .fiber
  let m := if how = .interrupt then m.interrupt target else m
  { control := .suspend (.wait w .none), run, machine := m.watch target w how }

/-- Wait for the end of a layer build. -/
def evalAwaitBuild (m : Machine σ) (f : FiberId) (scope : ScopeId) (run : RunState σ)
    (layer : LayerId) : StepResult σ :=
  let (w, m) := m.openWait f .build
  { control := .suspend (.wait w .none), run, machine := m.joinBuild scope layer w }

/-- Wait for a timer; no time at all only gives way. -/
def evalSleep (m : Machine σ) (f : FiberId) (run : RunState σ) (d : Duration) : StepResult σ :=
  if d.isZero then { control := .yield (.done (.ok .null)), run, machine := m }
  else
    let (w, m) := m.openWait f .timer
    let (handle, timers) := m.timers.schedule m.now d w
    { control := .suspend (.wait w (.timer handle)), run, machine := { m with timers } }

/-- Start a race; racing nothing is a defect. -/
def evalRace (m : Machine σ) (f : FiberId) (run : RunState σ) (children : List (Node σ)) :
    StepResult σ :=
  if children.isEmpty then
    { control := .die (.internal "race of no effects"), run, machine := m }
  else
    let (g, machine) := m.startRace f run.context children
    { control := .suspend (.group g), run, machine }

/-- Start many effects at once; of no effects there are no results. -/
def evalAll (m : Machine σ) (f : FiberId) (run : RunState σ) (children : List (Node σ))
    (options : AllOptions) : StepResult σ :=
  if children.isEmpty then { control := .done (.ok (.list [])), run, machine := m }
  else
    let (g, machine) := m.startAll f run.context children options
    { control := .suspend (.group g), run, machine }

/-- Evaluate a node that no interrupt stops. -/
def evalNode (m : Machine σ) (f : FiberId) (scope : ScopeId) (run : RunState σ) :
    Node σ → StepResult σ
  | .succeed v => { control := .done (.ok v), run, machine := m }
  | .fail cause => { control := .done (.error cause), run, machine := m }
  | .sync thunk =>
    match m.perform thunk with
    | (.ok exit, machine) => { control := .done exit, run, machine }
    | (.error p, machine) => { control := .die (.ofPanic p), run, machine }
  | .once ticket exit =>
    let (good, machine) := m.perform (Action.useTicket ticket)
    let control := match good with
      | .ok true => .done exit
      | _ => .die (.internal "one-shot node evaluated twice")
    { control, run, machine }
  | .async register => m.evalAsync f run register
  | .watch target how => m.evalWatch f run target how
  | .awaitBuild layer => m.evalAwaitBuild f scope run layer
  | .flatMap source next =>
    { control := .eval source, run := run.push (.flatMap next), machine := m }
  | .recover source handler =>
    { control := .eval source, run := run.push (.recover handler), machine := m }
  | .ensuring source finalizer =>
    { control := .eval source, run := run.push (.ensuring finalizer), machine := m }
  | .uninterruptible source =>
    { control := .eval source, run := run.shielded.push .regionEnd, machine := m }
  | .provide body plan exports => m.provide f scope run body plan exports
  | .race children => m.evalRace f run children
  | .all children options => m.evalAll f run children options
  | .retry source schedule =>
    { control := .eval source, run := run.push (.retry source schedule 0), machine := m }
  | .repeated source schedule attempt =>
    { control := .eval source, run := run.push (.repeated source schedule attempt), machine := m }
  | .sleep d => m.evalSleep f run d
  | .access reader => m.build run (reader run.context)
  | .fork source =>
    let (child, machine) := m.fork f source run.context
    { control := .done (.ok (.fiber child)), run, machine }
  | .log level message =>
    let entry := Entry.log level message f (renderSpans run.spans.reverse m.now)
    { control := .done (.ok .null), run, machine := m.write entry }
  | .span label source =>
    let run := { run with spans := { label, started := m.now } :: run.spans }
    { control := .eval source, run := run.push .spanEnd, machine := m }
  | .yield => { control := .yield (.done (.ok .null)), run, machine := m }

/-- Evaluate a node, unless an interrupt is noticed before it. -/
def eval (m : Machine σ) (f : FiberId) (scope : ScopeId) (run : RunState σ) (node : Node σ) :
    StepResult σ :=
  if node.isSuspensionPoint && m.interruptPending f run then
    { control := .done .interrupted, run, machine := m }
  else m.evalNode f scope run node

end Machine

end EffectFibers
