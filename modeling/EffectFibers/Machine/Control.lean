import EffectFibers.Machine.Perform

/-!
# The outcome of a step

A step of a fiber leaves the rest of its program, and says how to go on: with another step, by
waiting, by giving way to other fibers, or not at all because the program has an exit.
-/

namespace EffectFibers

variable {σ : Type}

/-- How a fiber goes on after a step. -/
inductive Control (σ : Type)
  | next (step : Step σ)
  | suspend (pending : Pending σ)
  | yield (step : Step σ)
  | finish (exit : Exit)

/-- A step of a fiber: how it goes on, the rest of its program, and the machine. -/
structure StepResult (σ : Type) where
  control : Control σ
  run : RunState σ
  machine : Machine σ

namespace Control

/-- Go on with an exit. -/
def done (exit : Exit) : Control σ := .next (.done exit)

/-- Go on by evaluating a tree. -/
def eval (node : Node σ) : Control σ := .next (.eval node)

/-- Go on with a defect. -/
def die (d : Defect) : Control σ := done (Exit.died d)

/-- Go on with the tree that user code has built, or with the defect of its panic. -/
def ofBuilt : Except Panic (Node σ) → Control σ
  | .ok node => eval node
  | .error p => die (.ofPanic p)

end Control

namespace RunState

/-- Put a frame on top. -/
def push (run : RunState σ) (frame : Frame σ) : RunState σ :=
  { run with stack := frame :: run.stack }

/-- Open an uninterruptible region. -/
def shielded (run : RunState σ) : RunState σ := { run with shield := run.shield + 1 }

/-- Close an uninterruptible region. -/
def unshielded (run : RunState σ) : RunState σ := { run with shield := run.shield - 1 }

end RunState

namespace Machine

/-- Whether a fiber was interrupted and may take notice of it now. -/
def interruptPending (m : Machine σ) (f : FiberId) (run : RunState σ) : Bool :=
  run.shield == 0 && m.isInterrupted f

/-- Go on with the tree that user code builds. -/
def build (m : Machine σ) (run : RunState σ) (code : Action σ (Node σ)) : StepResult σ :=
  let (built, machine) := m.perform code
  { control := .ofBuilt built, run, machine }

end Machine

end EffectFibers
