import EffectFibers.Proofs.Coherence.Complete
import EffectFibers.Proofs.Moment

/-!
# What is done about waits

A wait is claimed, and when it is given up then its canceler runs.  A machine shows that a wait has
been claimed, but neither by whom nor what has been tidied up.  So the operations that perform such
acts are followed step by step here, and what they do is noted down in a log.

The log of an operation is written from the machines that the operation goes through.  An operation
that comes too late for a wait performs no act on it.

## Main definitions

* `WaitAct`, `WaitLog` – what is done about waits.
* `Machine.interruptLog`, `Machine.performLog`, `Machine.finishLog` – the acts of interrupts, of user
  code, and of the end of a fiber.
* `Moment.waitLog` – the acts of a run.
-/

namespace EffectFibers

variable {σ : Type}

/-- Who claims a wait. -/
inductive Claimant
  /-- The one whose answer the fiber waits for. -/
  | answer (x : Exit)
  | interrupt
  /-- The fiber itself, whose question could not be passed on. -/
  | panic (p : Panic)

/-- What is done about a wait. -/
inductive WaitAct (σ : Type)
  | claims (claimant : Claimant)
  | cancels (canceler : Canceler σ)

/-- Acts, with the waits that they are about. -/
abbrev WaitLog (σ : Type) := List (WaitId × WaitAct σ)

/-- The acts on a wait. -/
def WaitLog.on (log : WaitLog σ) (w : WaitId) : List (WaitAct σ) :=
  (log.filter (·.1 = w)).map (·.2)

namespace WaitLog

variable {v w : WaitId}

@[simp] theorem on_nil (w : WaitId) : on ([] : WaitLog σ) w = [] := rfl

@[simp] theorem on_append (log more : WaitLog σ) (w : WaitId) :
    on (log ++ more) w = log.on w ++ more.on w := by
  simp [on]

@[simp] theorem on_cons_self (act : WaitAct σ) (log : WaitLog σ) (w : WaitId) :
    on ((w, act) :: log) w = act :: log.on w := by
  simp [on]

theorem on_cons_of_ne (other : v ≠ w) (act : WaitAct σ) (log : WaitLog σ) :
    on ((v, act) :: log) w = log.on w := by
  simp [on, other]

end WaitLog

namespace Machine

/-- The acts of doing one thing after the other. -/
def logOver {α : Type} (step : Machine σ → α → Machine σ) (log : Machine σ → α → WaitLog σ) :
    Machine σ → List α → WaitLog σ
  | _, [] => []
  | m, a :: as => log m a ++ logOver step log (step m a) as

/-! ## Claims -/

/-- A wait is claimed, if nobody has claimed it before. -/
def claimLog (m : Machine σ) (w : WaitId) (claimant : Claimant) : WaitLog σ :=
  if m.isOpen w then [(w, .claims claimant)] else []

def resumeLog (m : Machine σ) (w : WaitId) (x : Exit) : WaitLog σ := m.claimLog w (.answer x)

def callbackLog (m : Machine σ) (w : WaitId) (x : Exit) : WaitLog σ :=
  if (m.waits.get? w).any (·.source == .callback) then m.resumeLog w x else []

def wakeLog (m : Machine σ) (waiters : List WaitId) (x : Exit) : WaitLog σ :=
  logOver (fun m w => m.resume w x) (fun m w => m.resumeLog w x) m waiters

/-! ## Interrupts -/

/-- An interrupt takes a fiber out of its wait. -/
def breakLog (m : Machine σ) (fiber : Fiber σ) : WaitLog σ :=
  match fiber.breakable? with
  | none => []
  | some (w, _) => m.claimLog w .interrupt

/-- A fiber that was taken out of its wait tidies up. -/
def cancelLog (fiber : Fiber σ) (canceler : Option (Canceler σ)) : WaitLog σ :=
  match fiber.breakable?, canceler with
  | some (w, _), some canceler => [(w, .cancels canceler)]
  | _, _ => []

/-- Who has lost its wait to somebody else claims nothing. -/
theorem breakLog_of_lost {m : Machine σ} {fiber : Fiber σ}
    (lost : ∀ w canceler, fiber.breakable? = some (w, canceler) → m.isOpen w = false) :
    m.breakLog fiber = [] := by
  unfold breakLog
  split
  · rfl
  · rename_i w canceler breakable
    rw [claimLog, lost w canceler breakable]
    rfl

theorem cancelLog_none (fiber : Fiber σ) : cancelLog fiber none = [] := by
  unfold cancelLog
  split <;> simp_all

def interruptWithinLog : Nat → Machine σ → FiberId → WaitLog σ
  | 0, _, _ => []
  | depth + 1, m, f =>
    let m := m.mark f
    match m.fiber? f with
    | none => []
    | some fiber =>
      if fiber.status.isTerminal then []
      else
        let (canceler, n) := m.breakWait f fiber
        let n := n.trace (.interrupting f fiber.children.length)
        m.breakLog fiber ++
          logOver (interruptWithin depth) (interruptWithinLog depth) n fiber.children ++
          cancelLog fiber canceler

def interruptLog (m : Machine σ) (f : FiberId) : WaitLog σ :=
  interruptWithinLog (m.fibers.size + 1) m f

def interruptAllLog (m : Machine σ) (fibers : List FiberId) : WaitLog σ :=
  logOver interrupt interruptLog m fibers

/-! ## User code -/

def serveLog (m : Machine σ) : Request → WaitLog σ
  | .resume w x => m.callbackLog w x
  | .interrupt f => m.interruptLog f
  | .shutdown => m.interruptAllLog m.roots
  | .note _ | .resumeLater .. => []

def performLog {α : Type} (m : Machine σ) (code : Action σ α) : WaitLog σ :=
  let reply := code (statusOf m.fibers) m.world
  logOver serve serveLog { m with world := reply.world } reply.requests

/-! ## Layers -/

def joinBuildLog (m : Machine σ) (scope : ScopeId) (layer : LayerId) (w : WaitId) : WaitLog σ :=
  match (m.memo scope).get? layer with
  | some (.building ..) => []
  | _ => m.resumeLog w (.ok .null)

def completeBuildLog (m : Machine σ) (scope : ScopeId) (layer : LayerNode σ)
    (context : Context Value) : WaitLog σ :=
  let waiters := (m.memo scope).waiters layer.id
  let m := m.modifyMemo scope (·.insert layer.id (.built context))
  (m.trace (.built layer.name waiters.length)).wakeLog waiters (.ok .null)

def forgetBuildLog (m : Machine σ) (scope : ScopeId) (layer : LayerNode σ)
    (outcome : BuildOutcome) (x : Exit) : WaitLog σ :=
  match (m.memo scope).get? layer.id with
  | some (.building owner waiters) =>
    let m := m.modifyMemo scope (·.erase layer.id)
    (m.trace (.buildForgotten layer.name owner waiters.length outcome)).wakeLog waiters x
  | _ => []

def endBuildLog (m : Machine σ) (scope : ScopeId) (layer : LayerNode σ) (x : Exit) : WaitLog σ :=
  match x with
  | .ok (.context context) => m.completeBuildLog scope layer context
  | .ok _ =>
    m.forgetBuildLog scope layer .failed (.error (layer.copyCause (.die .typeMismatch)))
  | .error .interrupt => m.forgetBuildLog scope layer .abandoned (.ok .null)
  | .error cause =>
    let m := m.trace (.buildFailed layer.name cause)
    m.forgetBuildLog scope layer .failed (.error (layer.copyCause cause))

def resumeLayersLog (m : Machine σ) (scope : ScopeId) (build : LayerBuild σ) (x : Exit) :
    WaitLog σ :=
  if build.owning then
    match build.todo with
    | [] => []
    | layer :: _ => m.endBuildLog scope layer x
  else []

/-! ## Groups -/

def raceExitLog (m : Machine σ) (g : GroupId) (race : Race) (x : Exit) : WaitLog σ :=
  let settled := { race with
    remaining := race.remaining - 1
    winner := some (race.winner.getD x) }
  let m := m.setGroup g (.race settled)
  if race.winner.isSome then []
  else (m.trace (.raceSettled race.parent (race.members.length - 1))).interruptAllLog race.members

def allExitLog (m : Machine σ) (g : GroupId) (all : Gathering σ) (index : Nat) (x : Exit) :
    WaitLog σ :=
  let (siblings, all) := all.settle index x (m.isInterrupted all.parent)
  let m := m.setGroup g (.all all)
  if siblings.isEmpty then []
  else (m.trace (.allFailed all.parent siblings.length)).interruptAllLog siblings

def memberExitLog (m : Machine σ) (g : GroupId) (index : Nat) (x : Exit) : WaitLog σ :=
  match m.groups.get? g with
  | some (.race race) => m.raceExitLog g race x
  | some (.all all) => m.allExitLog g all index x
  | none => []

/-! ## The end of a fiber -/

def handOverLog (m : Machine σ) (reader : ExitReader) (x : Exit) : WaitLog σ :=
  match reader with
  | .group g place => m.memberExitLog g place x
  | .joiner | .handle => []

def tellWatcherLog (m : Machine σ) (f : FiberId) (w : WaitId) (how : Watch) : WaitLog σ :=
  match how with
  | .join => (m.takeExit f).2.resumeLog w (m.takeExit f).1
  | .await => (m.takeExit f).2.resumeLog w (.ok (.exit (Exit.received (m.takeExit f).1)))
  | .interrupt => m.resumeLog w (.ok .null)

/-- An observer of a fiber that has ended is told. -/
def tellLog (complete : Machine σ → FiberId → Exit → WaitLog σ) (f : FiberId) (m : Machine σ) :
    Observer → WaitLog σ
  | .watcher w how => m.tellWatcherLog f w how
  | .closing parent =>
    match m.childGone parent with
    | (some x, m) => complete m parent x
    | (none, _) => []

def completeLog : Nat → Machine σ → FiberId → Exit → WaitLog σ
  | 0, _, _, _ => []
  | height + 1, m, f, x =>
    match m.fiber? f with
    | none => []
    | some fiber =>
      let m := m.modifyFiber f fun fiber => fiber.ended x
      let m := m.trace (.exited f x)
      let m := m.detach f fiber.parent
      m.handOverLog fiber.reader x ++
        logOver (Coherent.tell height f) (tellLog (completeLog height) f)
          (m.handOver f fiber.reader x) fiber.observers

def watchLog (m : Machine σ) (f : FiberId) (w : WaitId) (how : Watch) : WaitLog σ :=
  if (m.status f).isTerminal then m.tellWatcherLog f w how else []

def finishLog (m : Machine σ) (f : FiberId) (x : Exit) : WaitLog σ :=
  let children := ((m.fiber? f).map (·.children)).getD []
  if children.isEmpty then completeLog (m.fibers.size + 1) m f x
  else
    let m := m.trace (.waitingForChildren f children.length)
    let m := m.modifyFiber f fun fiber =>
      { fiber with closing := some { remaining := children.length, exit := x } }
    m.interruptAllLog children

/-! ## Steps -/

/-- The question is passed on by user code; if that panics, the fiber takes the question back. -/
def evalAsyncLog (m : Machine σ) (f : FiberId)
    (register : WaitId → Action σ (Option (Cleanup σ))) : WaitLog σ :=
  let (w, m) := m.openWait f .callback
  m.performLog (register w) ++
    match m.perform (register w) with
    | (.ok _, _) => []
    | (.error p, m) => m.claimLog w (.panic p)

def evalWatchLog (m : Machine σ) (f : FiberId) (target : FiberId) (how : Watch) : WaitLog σ :=
  let (w, m) := m.openWait f .fiber
  if how = .interrupt then m.interruptLog target ++ (m.interrupt target).watchLog target w how
  else m.watchLog target w how

def evalAwaitBuildLog (m : Machine σ) (f : FiberId) (scope : ScopeId) (layer : LayerId) :
    WaitLog σ :=
  let (w, m) := m.openWait f .build
  m.joinBuildLog scope layer w

def evalLog (m : Machine σ) (f : FiberId) (scope : ScopeId) (run : RunState σ) (node : Node σ) :
    WaitLog σ :=
  if node.isSuspensionPoint && m.interruptPending f run then []
  else
    match node with
    | .sync thunk => m.performLog thunk
    | .once ticket _ => m.performLog (Action.useTicket ticket)
    | .async register => m.evalAsyncLog f register
    | .watch target how => m.evalWatchLog f target how
    | .awaitBuild layer => m.evalAwaitBuildLog f scope layer
    | .access reader => m.performLog (reader run.context)
    | _ => []

def resumeFrameLog (m : Machine σ) (scope : ScopeId) (frame : Frame σ) (x : Exit) : WaitLog σ :=
  match frame, x with
  | .flatMap next, .ok v => m.performLog (next v)
  | .recover handler, .error (.fail failure) => m.performLog (handler failure)
  | .repeated source schedule attempt, .ok v => m.performLog (repeatAfter source schedule attempt v)
  | .layers build, x => m.resumeLayersLog scope build x
  | _, _ => []

def stepRunLog (m : Machine σ) (f : FiberId) (scope : ScopeId) (run : RunState σ) : WaitLog σ :=
  match run.next with
  | .eval node => m.evalLog f scope run node
  | .done x =>
    match run.stack with
    | [] => []
    | frame :: _ => m.resumeFrameLog scope frame x

/-- A fiber that is about to sleep gives its wait up, if it notices an interrupt before it has its
answer. -/
def parkLog (m : Machine σ) (slice : Slice σ) (pending : Pending σ) : WaitLog σ :=
  match (m.fiber? slice.fiber).bind (·.input), pending with
  | none, .wait w canceler =>
    if m.interruptPending slice.fiber slice.run && m.isOpen w then
      [(w, .claims .interrupt), (w, .cancels canceler)]
    else []
  | _, _ => []

def followLog (m : Machine σ) (slice : Slice σ) (control : Control σ) : WaitLog σ :=
  match control with
  | .suspend pending => m.parkLog slice pending
  | .finish x => m.finishLog slice.fiber x
  | .next _ | .yield _ => []

end Machine

namespace Moment

/-- The acts of an event. -/
def waitLogAt (μ : Moment σ) : Event σ → WaitLog σ
  | .request request => μ.machine.serveLog request
  | .receive =>
    match μ.machine.outside with
    | [] => []
    | (w, x) :: _ => μ.machine.callbackLog w x
  | .fire =>
    match μ.machine.timers.queue.fireFirst with
    | (some (_, w), _) => μ.machine.resumeLog w (.ok .null)
    | (none, _) => []
  | .work =>
    match μ.taken, μ.machine.running with
    | some (slice, control), _ => μ.machine.followLog slice control
    | none, some slice =>
      let m := { μ.machine with running := none }
      m.stepRunLog slice.fiber (((m.fiber? slice.fiber).map (·.scope)).getD .none) slice.run
    | none, none => []
  | .start _ | .host _ | .elapse _ | .takeResult _ => []

end Moment

end EffectFibers
