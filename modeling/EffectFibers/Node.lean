import EffectFibers.Action
import EffectFibers.Concurrency
import EffectFibers.RunError
import EffectFibers.Schedule

/-!
# Effect trees

An effect is a tree that says what to do and does nothing by itself.  The leaves produce values
and causes, run user code, wait, read the context or write to the log; the inner nodes say how
the outcome of a part is used.  What comes after a value is user code that answers with another
tree, so only part of a tree is visible before it runs.

## Main definitions

* `Node σ` – trees over a host state of type `σ`.
* `LayerSpec ν` – one constructor in a layer graph, built by a tree of type `ν`.
* `Node.children` – the parts that are visible.
* `Node.outline` – the names of a tree's nodes, in the shape of the tree.
-/

namespace EffectFibers

/-- The severity of a message in the log. -/
inductive Level
  | trace | debug | info | warn | error
  deriving DecidableEq, Repr

namespace Level

def text : Level → String
  | .trace => "TRACE"
  | .debug => "DEBUG"
  | .info => "INFO"
  | .warn => "WARN"
  | .error => "ERROR"

end Level

/-- What is done with the end of a watched fiber. -/
inductive Watch
  /-- Adopt its exit. -/
  | join
  /-- Take its exit as a value. -/
  | await
  /-- Interrupt it first, and take only note of its end. -/
  | interrupt
  deriving DecidableEq, Repr

/-- One constructor in a layer graph: the services it produces, those it needs, and the tree that
builds them. -/
structure LayerSpec (ν : Type) where
  id : LayerId
  name : String
  outputs : Requirements
  inputs : Requirements
  build : ν

/-- A tree of effects over a host state of type `σ`. -/
inductive Node (σ : Type) : Type
  /-- Produce a value. -/
  | succeed (v : Value)
  /-- Produce a cause. -/
  | fail (c : Cause Failure)
  /-- Run user code. -/
  | sync (thunk : Roster → World σ → Reply σ Exit)
  /-- Produce an exit, for a ticket that is used up by it. -/
  | once (ticket : Ticket) (exit : Exit)
  /-- Register a callback and wait for it; a cleanup is for the wait that is given up. -/
  | async (register : WaitId → Roster → World σ → Reply σ (Option (Cleanup σ)))
  /-- Wait for the end of a fiber. -/
  | watch (fiber : FiberId) (how : Watch)
  /-- Wait for the end of a layer build that is under way in this run. -/
  | awaitBuild (layer : LayerId)
  /-- Run the source, and go on with what its value leads to. -/
  | flatMap (source : Node σ) (next : Value → Roster → World σ → Reply σ (Node σ))
  /-- Run the source, and recover from its failure. -/
  | recover (source : Node σ) (handler : Failure → Roster → World σ → Reply σ (Node σ))
  /-- Run the source, and then the finalizer on every path. -/
  | ensuring (source finalizer : Node σ)
  /-- Run the source with interrupts held back. -/
  | uninterruptible (source : Node σ)
  /-- Build the planned layers, and run the body with the exported services. -/
  | provide (body : Node σ) (plan : Except LayerError (List (LayerSpec (Node σ))))
      (exports : List TagId)
  /-- Run all children; the first one to end decides. -/
  | race (children : List (Node σ))
  /-- Run all children, and take all their results. -/
  | all (children : List (Node σ)) (options : AllOptions)
  /-- Run the source again after a failure, as the schedule says. -/
  | retry (source : Node σ) (schedule : Schedule Failure)
  /-- Run the source again after a value, as the schedule says, counting from an attempt. -/
  | repeated (source : Node σ) (schedule : Schedule Value) (attempt : Nat)
  /-- Wait for a while. -/
  | sleep (duration : Duration)
  /-- Go on with what the context leads to. -/
  | access (reader : Context Value → Roster → World σ → Reply σ (Node σ))
  /-- Start the source in a child fiber. -/
  | fork (source : Node σ)
  /-- Write a message to the log. -/
  | log (level : Level) (message : String)
  /-- Run the source inside a named span of the log. -/
  | span (label : String) (source : Node σ)
  /-- Let other fibers run. -/
  | yield

/-- One constructor of a layer, built by a tree. -/
abbrev LayerNode (σ : Type) := LayerSpec (Node σ)

/-- The order in which the constructors of a layer are built, or why there is none. -/
abbrev LayerPlan (σ : Type) := Except LayerError (List (LayerNode σ))

namespace LayerSpec

variable {ν : Type}

/-- The cause of a failed build as handed to someone else: a failure has to be copied. -/
def copyCause (l : LayerSpec ν) (c : Cause Failure) : Cause Failure :=
  match c with
  | .fail failure =>
    match failure.known? with
    | some copy => .fail copy
    | none => .die (.internal s!"layer {l.name} failed with an uncloneable error")
  | .die defect => .die defect
  | .interrupt => .interrupt

def debug (l : LayerSpec ν) (id : String) : String :=
  Text.record "LayerNode"
    [("id", id), ("name", Text.quoted l.name), ("outputs", l.outputs.debug),
     ("inputs", l.inputs.debug)]

end LayerSpec

namespace Node

variable {σ : Type}

instance : Inhabited (Node σ) := ⟨.succeed .null⟩

/-- Produce a defect. -/
def die (d : Defect) : Node σ := .fail (.die d)

/-- A tree that produces an exit which is known already.  Values need not be copied for it, as it
can run only once. -/
def given (x : Exit) : Action σ (Node σ) := do return .once (← Action.freshTicket) x

/-- The name of the kind of a node.  Everything that waits for a callback has one name, and so
has everything that goes on after a value. -/
def name : Node σ → String
  | .succeed _ => "Succeed"
  | .fail _ => "Fail"
  | .sync _ => "Sync"
  | .once .. => "Exit"
  | .async _ => "Async"
  | .watch .. => "Async"
  | .awaitBuild _ => "Async"
  | .flatMap .. => "FlatMap"
  | .recover .. => "Catch"
  | .ensuring .. => "Ensuring"
  | .uninterruptible _ => "Uninterruptible"
  | .provide .. => "Provide"
  | .race _ => "Race"
  | .all .. => "All"
  | .retry .. => "Retry"
  | .repeated .. => "FlatMap"
  | .sleep _ => "Sleep"
  | .access _ => "AccessContext"
  | .fork _ => "Fork"
  | .log .. => "Log"
  | .span .. => "LogSpan"
  | .yield => "Yield"

/-- The parts of a node that are visible before it runs. -/
def children : Node σ → List (Node σ)
  | .flatMap source _ | .recover source _ | .uninterruptible source | .provide source _ _
  | .retry source _ | .repeated source _ _ | .fork source | .span _ source => [source]
  | .ensuring source finalizer => [source, finalizer]
  | .race children | .all children _ => children
  | _ => []

end Node

/-- The names of a tree's nodes, in the shape of the tree. -/
inductive Outline
  | node (name : String) (children : List Outline)

mutual

/-- The visible shape of a tree. -/
def Node.outline {σ : Type} : Node σ → Outline
  | .flatMap source _ => .node "FlatMap" [source.outline]
  | .recover source _ => .node "Catch" [source.outline]
  | .ensuring source finalizer => .node "Ensuring" [source.outline, finalizer.outline]
  | .uninterruptible source => .node "Uninterruptible" [source.outline]
  | .provide body _ _ => .node "Provide" [body.outline]
  | .race children => .node "Race" (Node.outlines children)
  | .all children _ => .node "All" (Node.outlines children)
  | .retry source _ => .node "Retry" [source.outline]
  | .repeated source _ _ => .node "FlatMap" [source.outline]
  | .fork source => .node "Fork" [source.outline]
  | .span _ source => .node "LogSpan" [source.outline]
  | other => .node other.name []

def Node.outlines {σ : Type} : List (Node σ) → List Outline
  | [] => []
  | n :: rest => n.outline :: Node.outlines rest

end

theorem Node.outlines_eq_map {σ : Type} (ns : List (Node σ)) :
    Node.outlines ns = ns.map Node.outline := by
  induction ns with
  | nil => simp [Node.outlines]
  | cons n rest ih => simp [Node.outlines, ih]

/-- An outline shows the name of a node over the outlines of its visible parts. -/
theorem Node.outline_eq {σ : Type} (n : Node σ) :
    n.outline = .node n.name (n.children.map Node.outline) := by
  cases n <;> simp [Node.outline, Node.name, Node.children, Node.outlines_eq_map]

end EffectFibers
