import EffectFibers.Effect
import EffectFibers.Machine.Clock
import EffectFibers.Preflight

/-!
# Runs

A program is looked over before it starts.  A machine that was told to shut down accepts nothing;
otherwise every service that the program needs has to be provided, and every visible layer graph
has to have a plan.  Then a root fiber is started, and its identifier is the handle of the run.

The result of a run can be taken once.

## Main definitions

* `Machine.vet` – the checks before a run.
* `Machine.launch` – start a run.
* `Machine.takeResult` – take the result of a run.
-/

namespace EffectFibers.Machine

variable {σ : Type}

/-- A machine without fibers, over a world. -/
def start (world : World σ) : Machine σ := { world }

/-- Why a program is not started, if there is a reason. -/
def vet (m : Machine σ) (e : Effect σ) : Except RunError Unit :=
  if m.stopping then .error .shutdown
  else if !e.requires.isEmpty then .error (.missingServices e.requires.names)
  else
    match e.node.planError? with
    | some error => .error (.layer error)
    | none => .ok ()

/-- Start a program that was looked over; the answer is its root fiber. -/
def startRoot (m : Machine σ) (node : Node σ) : FiberId × Machine σ :=
  let (f, m) := m.spawnRoot node
  (f, { m with roots := m.roots ++ [f] }.enqueue f)

/-- Look a program over, and start it. -/
def launch (m : Machine σ) (e : Effect σ) : Except RunError (FiberId × Machine σ) := do
  m.vet e
  return m.startRoot e.node

/-- Whether a run has ended. -/
def isFinished (m : Machine σ) (f : FiberId) : Bool := (m.status f).isTerminal

/-- Take the result of a run; there is none while it goes on. -/
def takeResult (m : Machine σ) (f : FiberId) : Option Exit × Machine σ :=
  if m.isFinished f then
    match m.results.lookup f with
    | some exit =>
      (some (Exit.received exit), { m with results := m.results.filter (·.1 != f) })
    | none => (some (Exit.died (.internal "run result already taken")), m)
  else (none, m)

end EffectFibers.Machine
