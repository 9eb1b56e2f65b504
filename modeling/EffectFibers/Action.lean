import EffectFibers.Value

/-!
# User code

User code is a function of the outside world.  It may look up the status of fibers, it may change
the world and draw fresh identifiers, it may leave requests for the machine, and it ends with a
result or breaks off with a panic.  The world and the requests that it left before breaking off
stand.

## Main definitions

* `World σ` – the host's own state of type `σ`, with the supplies of identifiers.
* `Request` – what user code can ask of the machine.
* `Action σ α` – user code with a result of type `α`; actions form a monad.
-/

namespace EffectFibers

/-- The world outside the machine: the host's state, the identifiers handed out so far, and the
tickets among them that nobody has used. -/
structure World (σ : Type) where
  host : σ
  layers : Supply .layer := {}
  tickets : Supply .ticket := {}
  /-- The tickets that were issued and not used, the latest one first. -/
  unused : List Ticket := []

/-- What user code can ask of the machine that runs it. -/
inductive Request
  /-- Put a note into the record. -/
  | note (v : Value)
  /-- End an open callback wait with an exit. -/
  | resume (wait : WaitId) (exit : Exit)
  /-- The same, from outside and at some later time. -/
  | resumeLater (wait : WaitId) (exit : Exit)
  /-- Interrupt a fiber and everything below it. -/
  | interrupt (fiber : FiberId)
  /-- Interrupt every run, and accept no more. -/
  | shutdown

/-- The status of every fiber, as user code sees it. -/
abbrev Roster := FiberId → FiberStatus

/-- What user code leaves behind: its result or its panic, the world, and its requests in the
order in which it made them. -/
structure Reply (σ α : Type) where
  result : Except Panic α
  world : World σ
  requests : List Request

/-- User code with a result of type `α`. -/
def Action (σ α : Type) : Type := Roster → World σ → Reply σ α

namespace Action

variable {σ α β : Type}

/-- A result without any effect. -/
protected def pure (a : α) : Action σ α := fun _ w => ⟨.ok a, w, []⟩

/-- One piece of user code after another; a panic of the first one is the end. -/
protected def bind (x : Action σ α) (f : α → Action σ β) : Action σ β := fun roster w =>
  let first := x roster w
  match first.result with
  | .error panic => ⟨.error panic, first.world, first.requests⟩
  | .ok a =>
    let second := f a roster first.world
    ⟨second.result, second.world, first.requests ++ second.requests⟩

instance : Monad (Action σ) where
  pure := Action.pure
  bind := Action.bind

/-- Break off. -/
def panic (p : Panic) : Action σ α := fun _ w => ⟨.error p, w, []⟩

/-- Code that cannot touch the world. -/
def ofExcept : Except Panic α → Action σ α
  | .ok a => pure a
  | .error p => panic p

/-- Leave a request. -/
def request (r : Request) : Action σ Unit := fun _ w => ⟨.ok (), w, [r]⟩

/-- Read the host's state. -/
def get : Action σ σ := fun _ w => ⟨.ok w.host, w, []⟩

/-- Change the host's state. -/
def modify (f : σ → σ) : Action σ Unit := fun _ w => ⟨.ok (), { w with host := f w.host }, []⟩

/-- Look up the status of a fiber. -/
def statusOf (f : FiberId) : Action σ FiberStatus := fun roster w => ⟨.ok (roster f), w, []⟩

/-- A layer identifier that was never handed out before. -/
def freshLayer : Action σ LayerId := fun _ w =>
  ⟨.ok w.layers.next.1, { w with layers := w.layers.next.2 }, []⟩

/-- A ticket that was never handed out before.  It can be used once. -/
def freshTicket : Action σ Ticket := fun _ w =>
  let (ticket, tickets) := w.tickets.next
  ⟨.ok ticket, { w with tickets, unused := ticket :: w.unused }, []⟩

/-- Use a ticket; the answer says whether it was good. -/
def useTicket (t : Ticket) : Action σ Bool := fun _ w =>
  ⟨.ok (decide (t ∈ w.unused)), { w with unused := w.unused.erase t }, []⟩

/-- Run user code without a machine: there are no fibers, and nobody serves its requests. -/
def alone (code : Action σ α) (world : World σ) : Except Panic (α × World σ) :=
  let reply := code (fun _ => .interrupted) world
  reply.result.map fun a => (a, reply.world)

/-! ## The laws of the monad -/

theorem pure_bind (a : α) (f : α → Action σ β) : Action.bind (Action.pure a) f = f a := by
  funext roster w
  simp [Action.bind, Action.pure]

theorem bind_pure (x : Action σ α) : Action.bind x Action.pure = x := by
  funext roster w
  simp only [Action.bind, Action.pure]
  cases h : (x roster w).result <;> simp [← h]

end Action

/-- What tidies up after a wait that is given up: code whose only effects are on the world and on
the record. -/
abbrev Cleanup (σ : Type) := Action σ Unit

end EffectFibers
