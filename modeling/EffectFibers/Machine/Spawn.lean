import EffectFibers.Machine.State

/-!
# Starting fibers

A root fiber starts a run: it has no parent, an empty context and a scope of its own, in which the
run remembers its layers.  A child fiber is registered with its parent before it takes any step,
shares the parent's scope, and starts out interrupted if the parent is interrupted.

A fiber that has been made is not runnable yet.
-/

namespace EffectFibers.Machine

variable {σ : Type}

/-- A new root fiber. -/
def spawnRoot (m : Machine σ) (node : Node σ) : FiberId × Machine σ :=
  let f := m.fibers.nextId
  let scope := m.scopes.nextId
  let m := { m with
    scopes := m.scopes.push []
    fibers := m.fibers.push
      { parent := none, scope, reader := .handle, run := some { next := .eval node } } }
  (f, m.trace (.rootSpawned f))

/-- A new child of a fiber, in a context, with the one who will get its exit. -/
def spawnChild (m : Machine σ) (parent : FiberId) (node : Node σ) (context : Context Value)
    (reader : ExitReader) : FiberId × Machine σ :=
  let f := m.fibers.nextId
  let scope := ((m.fiber? parent).map (·.scope)).getD .none
  let interrupted := m.isInterrupted parent
  let m := { m with
    fibers := m.fibers.push
      { parent := some parent, scope, interrupted, reader
        run := some { next := .eval node, context } } }
  let m := m.modifyFiber parent fun fiber => { fiber with children := fiber.children ++ [f] }
  (f, m.trace (.spawned f parent))

/-- A new child, which becomes runnable at once. -/
def fork (m : Machine σ) (parent : FiberId) (node : Node σ) (context : Context Value) :
    FiberId × Machine σ :=
  let (child, m) := m.spawnChild parent node context .joiner
  (child, m.enqueue child)

end EffectFibers.Machine
