import EffectFibers.Machine.Launch

/-!
# Reachable moments

What can be said about every program is said about every moment that a machine can reach.  A
moment lies between two operations that happen in one piece.  The worker's share of these is to
take up a fiber, to take one step of it, and to do what the step has asked for; between the last
two the step has been taken and nothing has come of it yet.  Everything else may happen at any
moment: programs are started, callbacks come in, timers fire, fibers are interrupted, time passes.

A tick is one or two of the worker's operations without anything in between.

## Main definitions

* `Moment` – a machine between two operations.
* `Event` – an operation.
* `Moment.Reachable` – the moments that some sequence of events leads to.
-/

namespace EffectFibers

variable {σ : Type}

/-- A machine between two operations, with the step that was taken and not followed up yet. -/
structure Moment (σ : Type) where
  machine : Machine σ
  taken : Option (Slice σ × Control σ) := none

/-- An operation that happens in one piece. -/
inductive Event (σ : Type)
  /-- A program is started. -/
  | start (node : Node σ)
  /-- Code outside every fiber asks for something: a callback, an interrupt, a shutdown. -/
  | request (request : Request)
  /-- The host changes its own state. -/
  | host (change : σ → σ)
  /-- A callback comes in that another thread was about to make. -/
  | receive
  /-- The next timer fires. -/
  | fire
  /-- Time passes up to an instant. -/
  | elapse (instant : Nat)
  /-- Someone takes the result of a run. -/
  | takeResult (fiber : FiberId)
  /-- The worker goes on. -/
  | work

namespace Machine

/-- The step of the fiber on the worker, which is left to be followed up. -/
def takeStep (m : Machine σ) (slice : Slice σ) : Moment σ :=
  let scope := ((m.fiber? slice.fiber).map (·.scope)).getD .none
  let result := m.stepRun slice.fiber scope slice.run
  { machine := result.machine, taken := some ({ slice with run := result.run }, result.control) }

end Machine

namespace Moment

/-- The worker's next operation. -/
def work (μ : Moment σ) : Moment σ :=
  match μ.taken, μ.machine.running with
  | some (slice, control), _ => { machine := μ.machine.follow slice control }
  | none, some slice => { μ.machine with running := none }.takeStep slice
  | none, none => { machine := μ.machine.dispatch }

/-- The moment after an event. -/
def apply (μ : Moment σ) : Event σ → Moment σ
  | .start node => { μ with machine := (μ.machine.startRoot node).2 }
  | .request request => { μ with machine := μ.machine.serve request }
  | .host change =>
    let world := { μ.machine.world with host := change μ.machine.world.host }
    { μ with machine := { μ.machine with world } }
  | .receive => { μ with machine := μ.machine.receive }
  | .fire => { μ with machine := μ.machine.fireNext }
  | .elapse instant => { μ with machine := { μ.machine with now := max μ.machine.now instant } }
  | .takeResult f => { μ with machine := (μ.machine.takeResult f).2 }
  | .work => μ.work

/-- The moment after a sequence of events. -/
def run (μ : Moment σ) (events : List (Event σ)) : Moment σ := events.foldl apply μ

/-- The fiber that the worker steps. -/
def held (μ : Moment σ) : Option FiberId :=
  match μ.taken with
  | some (slice, _) => some slice.fiber
  | none => μ.machine.running.map (·.fiber)

/-- A machine without fibers, over a world, with a step budget. -/
def initial (world : World σ) (budget : Nat) : Moment σ :=
  { machine := { Machine.start world with stepBudget := budget } }

/-- The moments that a machine can reach. -/
inductive Reachable : Moment σ → Prop
  | initial (world : World σ) (budget : Nat) : Reachable (initial world budget)
  | apply {μ : Moment σ} (event : Event σ) : Reachable μ → Reachable (μ.apply event)

@[simp] theorem run_nil (μ : Moment σ) : μ.run [] = μ := rfl

@[simp] theorem run_cons (μ : Moment σ) (event : Event σ) (events : List (Event σ)) :
    μ.run (event :: events) = (μ.apply event).run events := rfl

theorem run_append (μ : Moment σ) (events later : List (Event σ)) :
    μ.run (events ++ later) = (μ.run events).run later := List.foldl_append

theorem Reachable.run {μ : Moment σ} (reachable : Reachable μ) (events : List (Event σ)) :
    Reachable (μ.run events) := by
  induction events generalizing μ with
  | nil => exact reachable
  | cons event events ih => exact ih (reachable.apply event)

/-- A tick that begins a slice is one operation of the worker. -/
theorem work_eq_dispatch {m : Machine σ} (free : m.running = none) :
    work { machine := m } = { machine := m.tick } := by
  simp [work, Machine.tick, free]

/-- A tick that takes a step is two operations of the worker. -/
theorem work_work_eq_tick {m : Machine σ} {slice : Slice σ} (busy : m.running = some slice) :
    work (work { machine := m }) = { machine := m.tick } := by
  simp [work, Machine.tick, Machine.stepSlice, Machine.takeStep, busy]

/-- Ticks lead from reachable moments to reachable moments. -/
theorem Reachable.tick {m : Machine σ} (reachable : Reachable { machine := m }) :
    Reachable { machine := m.tick } := by
  cases running : m.running with
  | none =>
      rw [← work_eq_dispatch running]
      exact reachable.apply .work
  | some slice =>
      rw [← work_work_eq_tick running]
      exact (reachable.apply .work).apply .work

end Moment

end EffectFibers
