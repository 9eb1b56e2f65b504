import EffectFibers.Record
import EffectFibers.ReadyQueue
import EffectFibers.Table
import EffectFibers.Timer.Registry

/-!
# The state of the machine

The machine runs programs as fibers on one worker.  A fiber that can go on is in the ready queue;
the worker takes the first one and steps it for one slice, until it waits, gives way, uses up its
step budget or ends.  A fiber keeps the rest of its program as a stack of frames, so neither deep
nor long programs need a deep stack of the machine.

Everything that one part does to another later on is data in the state: the wait that a callback
will end, the group that a child reports to, the observers of a fiber's end, the frames that hold
finalizers.

## Main definitions

* `Frame`, `RunState` – what is left of a program, and the step that comes next.
* `Fiber` – one execution, with its children, its wait and its observers.
* `Wait` – an open question that is answered once.
* `Group` – the children of a race or of many effects at once.
* `Machine` – all of it, with the world, the record and the clock.
-/

namespace EffectFibers

variable {σ : Type}

/-! ## What is left of a program -/

/-- The step that comes next: evaluate a tree, or hand an exit to the frame on top. -/
inductive Step (σ : Type)
  | eval (node : Node σ)
  | done (exit : Exit)

/-- A `provide` under way: the layers that are not ready yet, in plan order, and what has been
built so far. -/
structure LayerBuild (σ : Type) where
  body : Node σ
  exports : List TagId
  /-- The layers still to come; the first one is being built or waited for. -/
  todo : List (LayerNode σ)
  outer : Context Value
  built : Context Value
  /-- Whether this fiber builds the first layer itself. -/
  owning : Bool

/-- What waits for an exit. -/
inductive Frame (σ : Type)
  /-- Go on with the value. -/
  | flatMap (next : Value → Roster → World σ → Reply σ (Node σ))
  /-- Recover from a failure. -/
  | recover (handler : Failure → Roster → World σ → Reply σ (Node σ))
  /-- Run the finalizer next. -/
  | ensuring (finalizer : Node σ)
  /-- The finalizer runs; this was the exit before it. -/
  | finalizing (exit : Exit)
  /-- Leave an uninterruptible region. -/
  | regionEnd
  /-- Leave a `provide`. -/
  | restore (context : Context Value)
  /-- Leave a span of the log. -/
  | spanEnd
  /-- Run the source again after a failure. -/
  | retry (source : Node σ) (schedule : Schedule Failure) (attempt : Nat)
  /-- Run the source again after a value. -/
  | repeated (source : Node σ) (schedule : Schedule Value) (attempt : Nat)
  /-- A layer is being built or waited for. -/
  | layers (build : LayerBuild σ)

/-- What is left of a fiber's program. -/
structure RunState (σ : Type) where
  next : Step σ
  stack : List (Frame σ) := []
  context : Context Value := .empty
  /-- How many uninterruptible regions and finalizers are open. -/
  shield : Nat := 0
  /-- The open spans of the log, the innermost one first. -/
  spans : List LogSpan := []

/-! ## Waits -/

/-- Who may end a wait. -/
inductive WaitSource
  | callback | timer | build | fiber
  deriving DecidableEq, Repr

/-- A question that is answered once: whoever claims it first decides how the wait ends. -/
structure Wait where
  owner : FiberId
  source : WaitSource
  claimed : Bool := false

/-- What tidies up when a wait is given up. -/
inductive Canceler (σ : Type)
  | none
  | timer (handle : TimerId)
  | code (cleanup : Cleanup σ)

/-- What a suspended fiber waits for. -/
inductive Pending (σ : Type)
  | wait (wait : WaitId) (canceler : Canceler σ)
  | group (group : GroupId)

/-! ## Fibers -/

/-- Who wants to know that a fiber has ended. -/
inductive Observer
  /-- A fiber that watches it, and how it does. -/
  | watcher (wait : WaitId) (how : Watch)
  /-- A fiber whose program has ended and that waits for its children. -/
  | closing (parent : FiberId)
  deriving DecidableEq, Repr

/-- Who gets the exit of a fiber. -/
inductive ExitReader
  /-- Whoever joins or awaits it first; until then the fiber keeps its exit. -/
  | joiner
  /-- The group that the fiber belongs to, at its place there. -/
  | group (id : GroupId) (place : Nat)
  /-- The handle of the run. -/
  | handle
  deriving DecidableEq, Repr

/-- A fiber whose program has ended: the children that are still to end, and the exit. -/
structure Closing where
  remaining : Nat
  exit : Exit

/-- One execution of a program. -/
structure Fiber (σ : Type) where
  parent : Option FiberId
  scope : ScopeId
  interrupted : Bool := false
  status : FiberStatus := .running
  /-- What is left of the program, while nobody steps it. -/
  run : Option (RunState σ)
  /-- The exit that ended the wait, until the fiber goes on with it. -/
  input : Option Exit := none
  pending : Option (Pending σ) := none
  /-- The live children, in the order of their start. -/
  children : List FiberId := []
  observers : List Observer := []
  reader : ExitReader := .joiner
  /-- The exit of a fiber that has ended, until a joiner takes it. -/
  exit : Option Exit := none
  closing : Option Closing := none

/-! ## Groups of children -/

/-- A race: the first exit, and how many children are still to end. -/
structure Race where
  parent : FiberId
  members : List FiberId
  remaining : Nat
  winner : Option Exit := none

/-- Many effects at once: those that have not started, those that run, and the results so far. -/
structure Gathering (σ : Type) where
  parent : FiberId
  context : Context Value
  queue : List (Nat × Node σ)
  running : List (Nat × FiberId) := []
  results : List (Option (Except Failure Value))
  failure : Option (Cause Failure) := none
  limit : Nat
  mode : AllMode

/-- The children that a suspended fiber waits for. -/
inductive Group (σ : Type)
  | race (race : Race)
  | all (gathering : Gathering σ)

/-! ## Layers of a run -/

/-- What a run knows about a layer. -/
inductive MemoEntry
  | building (owner : FiberId) (waiters : List WaitId)
  | built (context : Context Value)

/-- The layers of one run, by identity. -/
abbrev Memo := List (LayerId × MemoEntry)

/-! ## The machine -/

/-- A fiber on the worker, with the rest of its step budget. -/
structure Slice (σ : Type) where
  fiber : FiberId
  run : RunState σ
  budget : Nat

/-- The whole machine over a host state of type `σ`. -/
structure Machine (σ : Type) where
  world : World σ
  /-- How many steps a slice may take. -/
  stepBudget : Nat := 2048
  fibers : Table .fiber (Fiber σ) := .empty
  ready : ReadyQueue FiberId := .empty
  running : Option (Slice σ) := none
  waits : Table .wait Wait := .empty
  groups : Table .group (Group σ) := .empty
  scopes : Table .scope Memo := .empty
  timers : TimerRegistry WaitId := {}
  /-- Nanoseconds since the start. -/
  now : Nat := 0
  /-- The root fibers that have not ended. -/
  roots : List FiberId := []
  /-- The results of runs that have ended, until someone takes them. -/
  results : List (FiberId × Exit) := []
  /-- Callbacks that other threads are about to make. -/
  outside : List (WaitId × Exit) := []
  /-- Whether the machine has been told to shut down. -/
  stopping : Bool := false
  record : Array Entry := #[]

namespace Machine

def fiber? (m : Machine σ) (f : FiberId) : Option (Fiber σ) := m.fibers.get? f

def modifyFiber (m : Machine σ) (f : FiberId) (change : Fiber σ → Fiber σ) : Machine σ :=
  { m with fibers := m.fibers.modify f change }

/-- The status of a fiber; one that does not exist has nothing left to do. -/
def statusOf (fibers : Table .fiber (Fiber σ)) (f : FiberId) : FiberStatus :=
  ((fibers.get? f).map (·.status)).getD .interrupted

def status (m : Machine σ) (f : FiberId) : FiberStatus := statusOf m.fibers f

/-- Whether a fiber was marked as interrupted. -/
def isInterrupted (m : Machine σ) (f : FiberId) : Bool := (m.fiber? f).any (·.interrupted)

def write (m : Machine σ) (entry : Entry) : Machine σ := { m with record := m.record.push entry }

def trace (m : Machine σ) (event : TraceEvent) : Machine σ := m.write (.trace event)

/-- Make a fiber runnable. -/
def enqueue (m : Machine σ) (f : FiberId) : Machine σ := { m with ready := m.ready.push f }

/-- Nothing can go on by itself. -/
def isIdle (m : Machine σ) : Bool := m.running.isNone && m.ready.isEmpty

end Machine

end EffectFibers
