import EffectFibers.Ident

/-!
# Who runs on a thread

A thread knows which worker it is, if it is one, and which fiber it is running, if any.
-/

namespace EffectFibers

/-- The worker number that means "no worker". -/
def noWorker : Nat := (1 <<< 64) - 1

/-- What a thread knows about itself. -/
structure ThreadIdentity where
  worker : Nat := noWorker
  fiber : FiberId := .none
  deriving DecidableEq, Repr

namespace ThreadIdentity

/-- The worker that the thread is. -/
def worker? (t : ThreadIdentity) : Option Nat :=
  if t.worker = noWorker then none else some t.worker

def isWorker (t : ThreadIdentity) : Bool := t.worker?.isSome

/-- The thread becomes a worker. -/
def become (t : ThreadIdentity) (worker : Nat) : ThreadIdentity := { t with worker }

/-- The thread begins to run a fiber. -/
def enter (t : ThreadIdentity) (fiber : FiberId) : ThreadIdentity := { t with fiber }

/-- The thread runs no fiber any more. -/
def leave (t : ThreadIdentity) : ThreadIdentity := { t with fiber := .none }

end ThreadIdentity

end EffectFibers
