import EffectFibers.Proofs.Timers.Cancelling
import EffectFibers.Proofs.Waits.Opening

/-!
# What a step does to timers

Only a step that sleeps sets a timer.  It opens a wait for the timer, and the fiber has the timer
cancelled if an interrupt ends the wait.  Every other step asks somebody who has nothing to do with
timers, if it asks at all.  A step in which user code interrupts fibers cancels the timers that
these have left; and this is all that an operation of the worker or of the host does to timers,
unless a fiber gives its own sleep up, or a timer fires.

## Main definitions

* `Stride.Sleeps` – a step that sets a timer and waits for it.
* `Machine.SetsNone` – a step that does not.

## Main statements

* `Stride.Sleeps.result` – what the one does.
* `Stride.setsNone` – every other step sets no timer.
* `Machine.Cancelling.follow` – what comes of a step.
-/

namespace EffectFibers

variable {σ : Type}

namespace Machine

variable {m₀ m : Machine σ} {f : FiberId} {run : RunState σ} {result : StepResult σ}

/-! ## Steps that set no timer -/

/-- A step that sets no timer.  It cancels those that others have left, and it asks nobody but those
who have nothing to do with timers. -/
structure SetsNone (m : Machine σ) (result : StepResult σ) : Prop where
  cancels : m.Cancelling [] result.machine
  asks : ∀ ⦃w c⦄, result.control = .suspend (.wait w c) →
    result.machine.Untimed w ∧ c.timers = []

namespace SetsNone

/-- A step with which the program goes on. -/
theorem of_next (cancels : m.Cancelling [] result.machine)
    (next : ∃ step, result.control = .next step) : m.SetsNone result := by
  refine ⟨cancels, fun w c asks => ?_⟩
  obtain ⟨step, next⟩ := next
  cases next.symm.trans asks

/-- A step with which the program gives way. -/
theorem of_yield (cancels : m.Cancelling [] result.machine)
    (yields : ∃ step, result.control = .yield step) : m.SetsNone result := by
  refine ⟨cancels, fun w c asks => ?_⟩
  obtain ⟨step, yields⟩ := yields
  cases yields.symm.trans asks

/-- A step with which the program waits for a group. -/
theorem of_group (cancels : m.Cancelling [] result.machine)
    (waits : ∃ k, result.control = .suspend (.group k)) : m.SetsNone result := by
  refine ⟨cancels, fun w c asks => ?_⟩
  obtain ⟨k, waits⟩ := waits
  cases waits.symm.trans asks

/-- A step that asks somebody who has nothing to do with timers. -/
theorem of_asks {n : Machine σ} {w : WaitId} {c : Canceler σ} (cancels : m.Cancelling [] n)
    (untimed : n.Untimed w) (none : c.timers = []) :
    m.SetsNone ⟨.suspend (.wait w c), run, n⟩ := by
  refine ⟨cancels, fun v c' asks => ?_⟩
  obtain ⟨rfl, rfl⟩ := Pending.wait.inj (Control.suspend.inj asks)
  exact ⟨untimed, none⟩

/-- A wait is opened that is not for a timer. -/
theorem opened (tidy : m.Tidy) (f : FiberId) (source : WaitSource) (other : source ≠ .timer) :
    m.Cancelling [] (m.openWait f source).2 ∧
      (m.openWait f source).2.Untimed m.waits.nextId :=
  ⟨(Cancelling.refl tidy).leaves (.openWait m f source), Evolves.untimed_openWait other⟩

theorem evalAsync (tidy : m.Tidy) (f : FiberId) (run : RunState σ)
    (register : WaitId → Action σ (Option (Cleanup σ))) :
    m.SetsNone (m.evalAsync f run register) := by
  obtain ⟨opened, untimed⟩ := opened tidy f .callback (by decide)
  have ran := opened.perform (register m.waits.nextId)
  have kept := (opened.again.perform (register m.waits.nextId)).waits
  unfold Machine.evalAsync
  dsimp only
  rw [show (m.openWait f .callback).1 = m.waits.nextId from rfl]
  generalize (m.openWait f .callback).2.perform (register m.waits.nextId) = reply at ran kept ⊢
  have still := untimed.mono kept
  obtain ⟨reply, n⟩ := reply
  rcases reply with p | _ | cleanup
  · -- the fiber takes its question back, if it can
    have claimed : n.LeavesTimers (n.claim m.waits.nextId).2 := .claim still
    dsimp only
    split
    · exact of_next (ran.leaves claimed) ⟨_, rfl⟩
    · exact of_asks (ran.leaves claimed) (still.mono claimed.waits) rfl
  · exact of_asks ran still rfl
  · exact of_asks ran still rfl

theorem evalWatch (tidy : m.Tidy) (f : FiberId) (run : RunState σ) (target : FiberId)
    (how : Watch) : m.SetsNone (m.evalWatch f run target how) := by
  obtain ⟨opened, untimed⟩ := opened tidy f .fiber (by decide)
  have asked : ∀ {n : Machine σ}, m.Cancelling [] n → n.Untimed m.waits.nextId →
      m.SetsNone ⟨.suspend (.wait m.waits.nextId .none), run,
        n.watch target m.waits.nextId how⟩ := by
    intro n cancelling untimed
    have watches : n.LeavesTimers (n.watch target m.waits.nextId how) := .watch untimed target how
    exact of_asks (cancelling.leaves watches) (untimed.mono watches.waits) rfl
  -- the fiber may have to be interrupted first
  unfold Machine.evalWatch
  dsimp only
  split
  · exact asked (opened.interrupt target) (untimed.mono (opened.again.interrupt target).waits)
  · exact asked opened untimed

theorem evalAwaitBuild (tidy : m.Tidy) (f : FiberId) (scope : ScopeId) (run : RunState σ)
    (layer : LayerId) : m.SetsNone (m.evalAwaitBuild f scope run layer) := by
  obtain ⟨opened, untimed⟩ := opened tidy f .build (by decide)
  have joins := opened.again.joinBuild scope layer untimed
  exact of_asks (opened.joinBuild scope layer untimed) (untimed.mono joins.waits) rfl

theorem build (tidy : m.Tidy) (run : RunState σ) (code : Action σ (Node σ)) :
    m.SetsNone (m.build run code) := by
  refine of_next ((Cancelling.refl tidy).perform code) ?_
  unfold Machine.build
  generalize m.perform code = reply
  obtain ⟨_ | _, n⟩ := reply <;> exact ⟨_, rfl⟩

theorem advanceLayers_next (m : Machine σ) (f : FiberId) (scope : ScopeId) (run : RunState σ)
    (build : LayerBuild σ) (layers : List (LayerNode σ)) :
    ∃ step, (m.advanceLayers f scope run build layers).control = .next step := by
  induction layers generalizing m build with
  | nil => exact ⟨_, rfl⟩
  | cons layer layers ih =>
      unfold Machine.advanceLayers
      generalize m.lookUpLayer scope layer f = result
      obtain ⟨_ | _ | _, n⟩ := result
      · exact ih n _
      · exact ⟨_, rfl⟩
      · exact ⟨_, rfl⟩

theorem resumeLayers (tidy : m.Tidy) (f : FiberId) (scope : ScopeId) (run : RunState σ)
    (build : LayerBuild σ) (x : Exit) : m.SetsNone (m.resumeLayers f scope run build x) := by
  refine of_next ((Cancelling.refl tidy).resumeLayers f scope run build x) ?_
  unfold Machine.resumeLayers
  split
  · split
    · exact ⟨_, rfl⟩
    · unfold Machine.endBuild
      split
      · exact advanceLayers_next _ _ _ _ _ _
      all_goals exact ⟨_, rfl⟩
  · split
    · exact advanceLayers_next _ _ _ _ _ _
    · exact ⟨_, rfl⟩

/-- A node other than a sleep that takes time. -/
theorem evalNode (tidy : m.Tidy) (f : FiberId) (scope : ScopeId) (run : RunState σ)
    {node : Node σ} (awake : ∀ d, node = .sleep d → d.isZero = true) :
    m.SetsNone (m.evalNode f scope run node) := by
  have start : m.Cancelling [] m := .refl tidy
  cases node with
  | sync thunk =>
      have ran := start.perform thunk
      simp only [Machine.evalNode]
      generalize m.perform thunk = reply at ran ⊢
      obtain ⟨_ | _, n⟩ := reply <;> exact of_next ran ⟨_, rfl⟩
  | once ticket x =>
      have ran := start.perform (Action.useTicket (σ := σ) ticket)
      simp only [Machine.evalNode]
      generalize m.perform (Action.useTicket ticket) = reply at ran ⊢
      obtain ⟨_ | _ | _, n⟩ := reply <;> exact of_next ran ⟨_, rfl⟩
  | async register => exact evalAsync tidy f run register
  | watch target how => exact evalWatch tidy f run target how
  | awaitBuild layer => exact evalAwaitBuild tidy f scope run layer
  | provide body plan exports =>
      cases plan with
      | error e => exact of_next start ⟨_, rfl⟩
      | ok layers =>
          exact of_next (start.leaves (.advanceLayers m f scope _ _ layers))
            (advanceLayers_next m f scope _ _ layers)
  | race children =>
      simp only [Machine.evalNode, Machine.evalRace]
      split
      · exact of_next start ⟨_, rfl⟩
      · exact of_group (start.leaves (.startRace m f run.context children)) ⟨_, rfl⟩
  | all children options =>
      simp only [Machine.evalNode, Machine.evalAll]
      split
      · exact of_next start ⟨_, rfl⟩
      · exact of_group (start.leaves (.startAll m f run.context children options)) ⟨_, rfl⟩
  | sleep d =>
      simp only [Machine.evalNode, Machine.evalSleep, awake d rfl, if_true]
      exact of_yield start ⟨_, rfl⟩
  | access reader => exact build tidy run (reader run.context)
  | fork source =>
      refine of_next (start.leaves ?_) ⟨_, rfl⟩
      exact (LeavesTimers.spawnChild m f source run.context .joiner).trans (.enqueue _ _)
  | log level message => exact of_next (start.leaves (.write m _)) ⟨_, rfl⟩
  | yield => exact of_yield start ⟨_, rfl⟩
  | _ => exact of_next start ⟨_, rfl⟩

theorem resumeFrame (tidy : m.Tidy) (f : FiberId) (scope : ScopeId) (run : RunState σ)
    (frame : Frame σ) (x : Exit) : m.SetsNone (m.resumeFrame f scope run frame x) := by
  have start : m.Cancelling [] m := .refl tidy
  cases frame with
  | layers build => exact resumeLayers tidy f scope run build x
  | finalizing earlier =>
      cases x with
      | ok v => exact of_next start ⟨_, rfl⟩
      | error cause => exact of_next (start.leaves (.trace m _)) ⟨_, rfl⟩
  | flatMap next =>
      cases x with
      | ok v => exact build tidy run (next v)
      | error cause => exact of_next start ⟨_, rfl⟩
  | recover handler =>
      rcases x with (failure | _ | _) | _
      · exact build tidy run (handler failure)
      all_goals exact of_next start ⟨_, rfl⟩
  | repeated source schedule attempt =>
      cases x with
      | ok v => exact build tidy run _
      | error cause => exact of_next start ⟨_, rfl⟩
  | retry source schedule attempt =>
      rcases x with (failure | _ | _) | _
      · unfold Machine.resumeFrame Machine.resumeRetry
        dsimp only
        split
        · -- a retry is a step of its own, and the sleep before it is the next
          refine of_next (start.leaves (.trace m _)) ?_
          unfold evalAfter
          split <;> exact ⟨_, rfl⟩
        · exact of_next (start.leaves (.trace m _)) ⟨_, rfl⟩
        · exact of_next start ⟨_, rfl⟩
      all_goals exact of_next start ⟨_, rfl⟩
  | _ => cases x <;> exact of_next start ⟨_, rfl⟩

/-- A step that does not evaluate a sleep that takes time, or notices an interrupt before it. -/
theorem stepRun (tidy : m.Tidy) (f : FiberId) (scope : ScopeId) (run : RunState σ)
    (awake : ∀ d, run.next = .eval (.sleep d) → d.isZero = false →
      m.interruptPending f run = true) : m.SetsNone (m.stepRun f scope run) := by
  unfold Machine.stepRun
  cases next : run.next with
  | eval node =>
      dsimp only
      unfold Machine.eval
      split
      · exact of_next (.refl tidy) ⟨_, rfl⟩
      · rename_i quiet
        refine evalNode tidy f scope run fun d same => ?_
        subst same
        by_contra long
        exact quiet (by simp [Node.isSuspensionPoint, awake d next (by simpa using long)])
  | done x =>
      dsimp only
      cases run.stack with
      | nil => exact ⟨.refl tidy, fun w c asks => by cases asks⟩
      | cons frame stack => exact resumeFrame tidy f scope _ frame x

end SetsNone

/-! ## What comes of a step -/

namespace Cancelling

theorem requeue (tidy : m.Tidy) (f : FiberId) (run : RunState σ) :
    m.Cancelling [] (m.requeue f run) := by
  refine (Cancelling.refl tidy).leaves (.trans (.of_row f fun _ => ?_) (.enqueue _ f))
  exact ⟨.inl rfl, List.Subset.refl _⟩

theorem dispatch (tidy : m.Tidy) : m.Cancelling [] m.dispatch := by
  have start : m.Cancelling [] m := .refl tidy
  unfold Machine.dispatch
  split
  · exact start
  · rename_i f ready _
    have popped : m.Cancelling [] { m with ready } := start.leaves (.of_eq rfl rfl rfl rfl)
    dsimp only
    split
    · exact popped
    · split
      · exact popped
      · refine popped.leaves (.trans (.of_row f fun _ => ?_) (.of_eq rfl rfl rfl rfl))
        exact ⟨.inl rfl, List.Subset.refl _⟩

/-- A fiber goes on as its step has said, if that is not to wait. -/
theorem follow (tidy : m.Tidy) (slice : Slice σ) {control : Control σ}
    (calm : ∀ pending, control ≠ .suspend pending) : m.Cancelling [] (m.follow slice control) := by
  cases control with
  | next step =>
      simp only [Machine.follow]
      split
      · exact requeue tidy _ _
      · exact (Cancelling.refl tidy).leaves (.of_eq rfl rfl rfl rfl)
  | yield step => exact requeue tidy _ _
  | suspend pending => exact absurd rfl (calm pending)
  | finish x => exact (Cancelling.refl tidy).finish slice.fiber x

theorem receive (tidy : m.Tidy) : m.Cancelling [] m.receive := by
  unfold Machine.receive
  split
  · exact .refl tidy
  · refine ((Cancelling.refl tidy).leaves ?_).leaves (.resumeCallback _ _ _)
    exact .of_eq rfl rfl rfl rfl

theorem takeResult (tidy : m.Tidy) (f : FiberId) : m.Cancelling [] (m.takeResult f).2 := by
  unfold Machine.takeResult
  split
  · split
    · exact (Cancelling.refl tidy).leaves (.of_eq rfl rfl rfl rfl)
    · exact .refl tidy
  · exact .refl tidy

end Cancelling

end Machine

/-! ## Steps that set a timer -/

/-- A step that sets a timer: it evaluates a sleep that takes time, and notices no interrupt before
it. -/
structure Stride.Sleeps (s : Stride σ) (d : Duration) : Prop where
  next : s.slice.run.next = .eval (.sleep d)
  long : d.isZero = false
  calm : s.machine.interruptPending s.slice.fiber s.slice.run = false

namespace Stride

variable {s : Stride σ} {d : Duration}

/-- The timer that a step sets, if it sets one. -/
def timer (s : Stride σ) : TimerId := s.machine.timers.handles.next.1

/-- What a step comes to that sets a timer. -/
theorem Sleeps.result (sleeps : s.Sleeps d) :
    s.result = ⟨.suspend (.wait s.wait (.timer s.timer)), s.slice.run,
      { (s.machine.openWait s.slice.fiber .timer).2 with
        timers := (s.machine.timers.schedule s.machine.now d s.wait).2 }⟩ := by
  rw [Stride.result, Machine.stepRun_eval sleeps.next, Machine.eval, sleeps.calm, Bool.and_false,
    if_neg (by simp)]
  simp only [Machine.evalNode, Machine.evalSleep, sleeps.long, Bool.false_eq_true, if_false]
  rfl

/-- Every other step sets no timer. -/
theorem setsNone (tidy : s.machine.Tidy) (awake : ∀ d, ¬ s.Sleeps d) :
    s.machine.SetsNone s.result := by
  refine .stepRun tidy _ _ _ fun d next long => ?_
  by_contra calm
  exact awake d ⟨next, long, by simpa using calm⟩

end Stride

end EffectFibers
