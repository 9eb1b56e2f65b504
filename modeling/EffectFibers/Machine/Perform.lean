import EffectFibers.Machine.Interrupt

/-!
# Running user code

The machine runs user code by handing it the world and the status of every fiber, and takes back
its result and the changed world.  Then it serves the requests, in the order in which they were
made.  A panic counts as a result, so user code never breaks the machine.

## Main definitions

* `Machine.serve` – serve one request.
* `Machine.perform` – run user code.
-/

namespace EffectFibers.Machine

variable {σ : Type}

/-- Interrupt every run, and stop for good when nothing is left to do. -/
def shutDown (m : Machine σ) : Machine σ :=
  { m.roots.foldl interrupt m with stopping := true }

/-- Serve a request of user code. -/
def serve (m : Machine σ) (request : Request) : Machine σ :=
  match request with
  | .note v => m.write (.note v)
  | .resume w exit => m.resumeCallback w exit
  | .resumeLater w exit => { m with outside := m.outside ++ [(w, exit)] }
  | .interrupt f => m.interrupt f
  | .shutdown => m.shutDown

/-- Run user code: its result or its panic, and the machine after it. -/
def perform {α : Type} (m : Machine σ) (code : Action σ α) : Except Panic α × Machine σ :=
  let reply := code (statusOf m.fibers) m.world
  (reply.result, reply.requests.foldl serve { m with world := reply.world })

end EffectFibers.Machine
