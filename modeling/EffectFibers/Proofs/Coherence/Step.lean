import EffectFibers.Machine.Tick
import EffectFibers.Proofs.Coherence.Complete

/-!
# Steps keep a machine coherent

A step of the fiber on the worker leaves the machine coherent, up to what the step asks for: the
wait that it has opened or the group that it has started.  To follow the step up is to put the
fiber to sleep, to put it back into the queue or to end it; then no exception is left.

## Main definitions

* `Control.focus` – what is open after a step.

## Main statements

* `Coherent.stepRun` – a step of the fiber on the worker.
* `Coherent.follow` – what comes of a step.
* `Coherent.dispatch` – a fiber goes to the worker.
-/

namespace EffectFibers

variable {σ : Type}

/-- What is open after a step of a fiber: the wait or the group that it is going to sleep on. -/
def Control.focus (control : Control σ) (f : FiberId) (promise kept : Option (FiberId × Exit)) :
    Focus :=
  match control with
  | .suspend (.wait w _) => { held := some f, asking := some w, promise, kept }
  | .suspend (.group g) => { held := some f, opening := some g, promise, kept }
  | _ => { held := some f, promise, kept }

namespace Coherent

variable {m : Machine σ} {φ : Focus} {f : FiberId} {scope : ScopeId} {run : RunState σ}
  {promise kept : Option (FiberId × Exit)}

/-- A step has left the machine coherent, up to what the step asks for. -/
def After (f : FiberId) (promise kept : Option (FiberId × Exit)) (result : StepResult σ) : Prop :=
  Coherent result.machine.core (result.control.focus f promise kept)

/-! ## Steps -/

/-- The fiber on the worker goes on with the tree that user code builds. -/
theorem build (coherent : Coherent m.core { held := some f, promise, kept }) (run : RunState σ)
    (code : Action σ (Node σ)) : After f promise kept (m.build run code) := by
  have performed := coherent.perform code
  unfold After Machine.build
  generalize m.perform code = result at performed ⊢
  obtain ⟨built, m'⟩ := result
  cases built <;> exact performed

/-- Going on with a plan. -/
theorem advanceLayers (coherent : Coherent m.core { held := some f, promise, kept })
    (run : RunState σ) (build : LayerBuild σ) (layers : List (LayerNode σ)) :
    After f promise kept (m.advanceLayers f scope run build layers) := by
  induction layers generalizing m build with
  | nil => exact coherent
  | cons layer rest ih =>
      have looked := coherent.lookUpLayer scope layer f
      unfold Machine.advanceLayers
      generalize m.lookUpLayer scope layer f = result at looked ⊢
      obtain ⟨state, m'⟩ := result
      cases state with
      | built context => exact ih looked _
      | claimed => exact looked
      | busy => exact looked

/-- The build of a layer has an exit. -/
theorem endBuild (coherent : Coherent m.core { held := some f, promise, kept })
    (run : RunState σ) (build : LayerBuild σ) (layer : LayerNode σ) (rest : List (LayerNode σ))
    (exit : Exit) :
    After f promise kept (m.endBuild f scope run build layer rest exit) := by
  unfold Machine.endBuild
  split
  · exact advanceLayers (coherent.completeBuild scope layer _) _ _ _
  · exact coherent.forgetBuild scope layer _ _
  · exact coherent.forgetBuild scope layer _ _
  · exact (coherent.trace rfl rfl).forgetBuild scope layer _ _

/-- An exit reaches the layers that a fiber builds or waits for. -/
theorem resumeLayers (coherent : Coherent m.core { held := some f, promise, kept })
    (run : RunState σ) (build : LayerBuild σ) (exit : Exit) :
    After f promise kept (m.resumeLayers f scope run build exit) := by
  unfold Machine.resumeLayers
  split
  · split
    · exact coherent
    · exact coherent.endBuild _ _ _ _ _
  · split
    · exact coherent.advanceLayers _ _ _
    · exact coherent

/-- A retried source has failed. -/
theorem resumeRetry (coherent : Coherent m.core { held := some f, promise, kept })
    (run : RunState σ) (source : Node σ) (schedule : Schedule Failure) (attempt : Nat)
    (failure : Failure) :
    After f promise kept (m.resumeRetry f run source schedule attempt failure) := by
  unfold Machine.resumeRetry
  split
  · rename_i delay _
    have traced : Coherent (m.trace (.retrying f (reportedAttempt attempt) delay)).core
        { held := some f, promise, kept } := coherent.trace rfl rfl
    unfold Machine.evalAfter
    split
    · exact traced
    · exact traced
  · exact Coherent.trace coherent rfl rfl
  · exact coherent

/-- A frame gets an exit. -/
theorem resumeFrame (coherent : Coherent m.core { held := some f, promise, kept })
    (run : RunState σ) (frame : Frame σ) (exit : Exit) :
    After f promise kept (m.resumeFrame f scope run frame exit) := by
  unfold Machine.resumeFrame
  split
  case h_1 => exact coherent.build _ _
  case h_3 => exact coherent.build _ _
  case h_6 earlier exit =>
    unfold After Machine.resumeFinalizing
    split
    · exact coherent
    · exact Coherent.trace coherent rfl rfl
  case h_10 => exact coherent.resumeRetry _ _ _ _ _
  case h_12 => exact coherent.build _ _
  case h_14 => exact coherent.resumeLayers _ _ _
  all_goals exact coherent

/-- The fiber on the worker asks. -/
theorem openWait (coherent : Coherent m.core { held := some f, promise, kept })
    (source : WaitSource) :
    Coherent (m.openWait f source).2.core
      { held := some f, asking := some (m.openWait f source).1, promise, kept } := by
  obtain ⟨worker, shaped, family, heirs, agenda, waiting, seating⟩ := coherent
  refine ⟨worker, shaped, family, heirs, agenda, ?_, seating⟩
  have owner : (m.openWait f source).2.core.owner =
      Function.update m.core.owner m.waits.nextId (some f) :=
    Table.find_push _ _ _
  rw [owner]
  exact waiting.openWait (Table.find_nextId _ _)

/-- The fiber on the worker claims the wait that it has opened, if nobody has done so. -/
theorem claimOwn {w : WaitId} (coherent : Coherent m.core
      { held := some f, asking := some w, promise, kept }) :
    if (m.claim w).1 then
      Coherent (m.claim w).2.core { held := some f, promise, kept } ∧ m.core.input f = none
    else (m.claim w).2 = m := by
  by_cases free : m.isOpen w
  · simp only [Machine.claim, if_pos free, ↓reduceIte]
    obtain ⟨wait, row⟩ : ∃ wait, m.waits.get? w = some wait := by
      simp only [Machine.isOpen, Option.any_eq_true] at free
      obtain ⟨wait, row, -⟩ := free
      exact ⟨wait, row⟩
    have owner := owner_of_isOpen row free
    have own := coherent.waiting.asker_owns rfl rfl owner
    rw [own] at owner
    rcases coherent.waiting.of_owner owner with asleep | ⟨-, -, silent⟩
    · exact absurd asleep (by simp [coherent.waiting.held_awake rfl])
    · refine ⟨?_, silent⟩
      obtain ⟨worker, shaped, family, heirs, agenda, waiting, seating⟩ := coherent
      refine ⟨worker, shaped, family, heirs, agenda, ?_, seating⟩
      have owner : ({ m with waits := m.waits.modify w fun wait =>
          { wait with claimed := true } } : Machine σ).core.owner =
          Function.update m.core.owner w none := owner_claimed (κ := m.core) row
      rw [owner]
      exact waiting.giveUp silent
  · simp [Machine.claim, if_neg free]

/-- Handing a callback to user code. -/
theorem evalAsync (coherent : Coherent m.core { held := some f, promise, kept })
    (run : RunState σ) (register : WaitId → Action σ (Option (Cleanup σ))) :
    After f promise kept (m.evalAsync f run register) := by
  have performed := (coherent.openWait .callback).perform (register (m.openWait f .callback).1)
  unfold Machine.evalAsync
  generalize m.openWait f .callback = opened at performed ⊢
  obtain ⟨w, m'⟩ := opened
  simp only at performed ⊢
  generalize m'.perform (register w) = result at performed ⊢
  obtain ⟨answer, m'⟩ := result
  cases answer with
  | ok cleanup => exact performed
  | error p =>
      have claimed := performed.claimOwn
      unfold After
      simp only
      generalize m'.claim w = result at claimed ⊢
      obtain ⟨won, last⟩ := result
      cases won with
      | true => exact claimed.1
      | false =>
          obtain rfl : last = m' := claimed
          exact performed

/-- Waiting for the end of a fiber. -/
theorem evalWatch (coherent : Coherent m.core { held := some f, promise, kept })
    (run : RunState σ) (target : FiberId) (how : Watch) :
    After f promise kept (m.evalWatch f run target how) := by
  have opened := coherent.openWait .fiber
  refine watch ?_ target _ how
  split
  · exact opened.interrupt target
  · exact opened

/-- Waiting for the end of a build. -/
theorem evalAwaitBuild (coherent : Coherent m.core { held := some f, promise, kept })
    (run : RunState σ) (layer : LayerId) :
    After f promise kept (m.evalAwaitBuild f scope run layer) :=
  (coherent.openWait .build).joinBuild scope layer _

/-- Waiting for a timer. -/
theorem evalSleep (coherent : Coherent m.core { held := some f, promise, kept })
    (run : RunState σ) (d : Duration) : After f promise kept (m.evalSleep f run d) := by
  unfold Machine.evalSleep
  split
  · exact coherent
  · exact coherent.openWait .timer

/-- Starting a race. -/
theorem evalRace (coherent : Coherent m.core { held := some f, promise, kept })
    (run : RunState σ) (nodes : List (Node σ)) :
    After f promise kept (m.evalRace f run nodes) := by
  unfold Machine.evalRace
  split
  · exact coherent
  · rename_i nonempty
    exact coherent.startRace run.context (by simpa using nonempty)

/-- Starting many effects at once. -/
theorem evalAll (coherent : Coherent m.core { held := some f, promise, kept })
    (run : RunState σ) (nodes : List (Node σ)) (options : AllOptions) :
    After f promise kept (m.evalAll f run nodes options) := by
  unfold Machine.evalAll
  split
  · exact coherent
  · rename_i nonempty
    exact coherent.startAll run.context (by simpa using nonempty) options

/-- Evaluating a node. -/
theorem evalNode (coherent : Coherent m.core { held := some f, promise, kept })
    (run : RunState σ) (node : Node σ) : After f promise kept (m.evalNode f scope run node) := by
  cases node with
  | sync thunk =>
      have performed := coherent.perform thunk
      simp only [Machine.evalNode]
      generalize m.perform thunk = result at performed ⊢
      obtain ⟨answer, m'⟩ := result
      cases answer <;> exact performed
  | once ticket exit =>
      have performed := coherent.perform (Action.useTicket ticket)
      simp only [Machine.evalNode]
      generalize m.perform (Action.useTicket ticket) = result at performed ⊢
      obtain ⟨good, m'⟩ := result
      simp only
      unfold After
      split <;> exact performed
  | async register => exact coherent.evalAsync run register
  | watch target how => exact coherent.evalWatch run target how
  | awaitBuild layer => exact coherent.evalAwaitBuild run layer
  | provide body plan exports =>
      unfold Machine.evalNode Machine.provide
      cases plan with
      | error e => exact coherent
      | ok layers => exact coherent.advanceLayers _ _ _
  | race children => exact coherent.evalRace run children
  | all children options => exact coherent.evalAll run children options
  | sleep d => exact coherent.evalSleep run d
  | access reader => exact coherent.build run _
  | fork source =>
      exact fork (m := m) coherent (coherent.fertile_of_held rfl) (by simp) rfl rfl source
        run.context
  | log level message =>
      unfold After Machine.evalNode
      rw [Machine.core_write_of_quiet _ rfl rfl]
      exact coherent
  | _ => exact coherent

/-- A step of the fiber on the worker. -/
theorem stepRun (coherent : Coherent m.core { held := some f, promise, kept })
    (run : RunState σ) : After f promise kept (m.stepRun f scope run) := by
  unfold Machine.stepRun
  split
  · unfold Machine.eval
    split
    · exact coherent
    · exact coherent.evalNode run _
  · split
    · exact coherent
    · exact coherent.resumeFrame _ _ _

/-! ## What comes of a step -/

/-- Between two operations nothing is open but the slice on the worker. -/
def Rests (m : Machine σ) (promise kept : Option (FiberId × Exit)) : Prop :=
  ∃ held, Coherent m.core { held, worker := held, promise, kept }

/-- The slice of the fiber that is being stepped lies with the worker. -/
theorem seize (coherent : Coherent m.core { held := some f, promise, kept }) {slice : Slice σ}
    (same : slice.fiber = f) : Rests { m with running := some slice } promise kept := by
  obtain ⟨-, shaped, family, heirs, agenda, waiting, seating⟩ := coherent
  refine ⟨some f, ?_, shaped, family, heirs, agenda, waiting, seating⟩
  simp [Machine.core, same]

theorem rests (coherent : Coherent m.core { promise, kept }) : Rests m promise kept :=
  ⟨none, coherent⟩

/-- A fiber that sleeps. -/
def sleeping (run : RunState σ) (pending : Pending σ) (fiber : Fiber σ) : Fiber σ :=
  { fiber with run := some run, pending := some pending, status := .suspended }

theorem shaped_sleeping {fiber : Fiber σ} (run : RunState σ) (pending : Pending σ)
    (silent : fiber.input = none) (unended : fiber.closing = none) :
    (sleeping run pending fiber).Shaped := by
  constructor <;> simp [sleeping, silent, unended, FiberStatus.isTerminal]

/-- The fiber on the worker goes to sleep on the wait that it has opened. -/
theorem suspend_wait {w : WaitId} (canceler : Canceler σ) (coherent : Coherent m.core
      { held := some f, asking := some w, promise, kept }) (silent : m.core.input f = none) :
    Coherent (m.suspend f run (.wait w canceler)).core { promise, kept } := by
  obtain ⟨fiber, row, running, unsaved, unended⟩ := coherent.row_of_held rfl
  have silent' : fiber.input = none := by rwa [Core.input, Table.find_of_row _ row] at silent
  have awake := (coherent.shaped row).pending_of_running running
  refine coherent.of_row row (sleeping run (.wait w canceler)) _ coherent.worker rfl rfl rfl
    (coherent.heirs_of_row row rfl (List.Subset.refl _)) (shaped_sleeping _ _ silent' unended)
    ?_ ?_ ?_ ?_
  · have same : (sleeping run (.wait w canceler) fiber).kin = fiber.kin := by
      simp [sleeping, Fiber.kin, Fiber.verdict, running, FiberStatus.isTerminal]
    rw [Core.kin, Table.update_view row same]
    exact coherent.family
  · exact coherent.agenda.rest
  · have same : (sleeping run (.wait w canceler) fiber).input = fiber.input := rfl
    rw [Core.input, Table.update_find row same]
    exact coherent.waiting.sleep silent
  · have same : (sleeping run (.wait w canceler) fiber).live = fiber.live := by
      simp [sleeping, Fiber.live, running, FiberStatus.isTerminal]
    have same' : (sleeping run (.wait w canceler) fiber).awaits = fiber.awaits := by
      simp [sleeping, Fiber.awaits, awake, Pending.group?]
    rw [Core.live, Core.awaits, Table.update_view row same, Table.update_find row same']
    exact coherent.seating.hold

/-- The fiber on the worker goes to sleep on the group that it has started. -/
theorem suspend_group {g : GroupId} (coherent : Coherent m.core
      { held := some f, opening := some g, promise, kept }) :
    Coherent (m.suspend f run (.group g)).core { promise, kept } := by
  obtain ⟨fiber, row, running, unsaved, unended⟩ := coherent.row_of_held rfl
  have silent : fiber.input = none := by
    by_contra answered
    refine coherent.waiting.held_input rfl ?_ rfl
    rwa [Core.input, Table.find_of_row _ row]
  have awake := (coherent.shaped row).pending_of_running running
  refine coherent.of_row row (sleeping run (.group g)) _ coherent.worker rfl rfl rfl
    (coherent.heirs_of_row row rfl (List.Subset.refl _)) (shaped_sleeping _ _ silent unended)
    ?_ ?_ ?_ ?_
  · have same : (sleeping run (.group g) fiber).kin = fiber.kin := by
      simp [sleeping, Fiber.kin, Fiber.verdict, running, FiberStatus.isTerminal]
    rw [Core.kin, Table.update_view row same]
    exact coherent.family
  · exact coherent.agenda.rest
  · have same : (sleeping run (.group g) fiber).sleepsOn = fiber.sleepsOn := by
      simp [sleeping, Fiber.sleepsOn, awake, Pending.wait?]
    have same' : (sleeping run (.group g) fiber).input = fiber.input := rfl
    rw [Core.sleeps, Core.input, Table.update_find row same, Table.update_find row same']
    exact coherent.waiting.release
  · have same : (sleeping run (.group g) fiber).live = fiber.live := by
      simp [sleeping, Fiber.live, running, FiberStatus.isTerminal]
    rw [Core.live, Table.update_view row same]
    refine coherent.seating.park ?_
    rw [Core.awaits, Table.find_of_row _ row, Fiber.awaits, awake]
    rfl

/-- The fiber on the worker finds an answer instead of going to sleep. -/
theorem takeInput {pending : Pending σ} (coherent : Coherent m.core
      ((Control.suspend pending).focus f promise kept)) (answered : m.core.input f ≠ none)
    (other : ∀ y, kept ≠ some (f, y)) :
    Coherent (m.modifyFiber f fun fiber => { fiber with input := none }).core
      { held := some f, promise, kept } := by
  -- only a wait can have been answered
  obtain ⟨w, canceler, rfl⟩ : ∃ w canceler, pending = .wait w canceler := by
    cases pending with
    | wait w canceler => exact ⟨w, canceler, rfl⟩
    | group g => exact absurd rfl (coherent.waiting.held_input rfl answered)
  obtain ⟨fiber, row, running, unsaved, unended⟩ := coherent.row_of_held rfl
  let after : Fiber σ := { fiber with input := none }
  refine coherent.of_row row _ after coherent.worker rfl rfl rfl
    (coherent.heirs_of_row row rfl (List.Subset.refl _)) ?_ ?_ ?_ ?_ ?_
  · obtain ⟨h1, h2, h3, h4⟩ := coherent.shaped row
    exact ⟨fun h => ⟨(h1 h).1, rfl, (h1 h).2.2⟩, fun h => ⟨(h2 h).1, (h2 h).2.1, rfl⟩, h3,
      fun h => ⟨(h4 h).1, rfl⟩⟩
  · have same : after.kin = fiber.kin := rfl
    rw [Core.kin, Table.update_view row same]
    exact coherent.family
  · have same : after.task = fiber.task := rfl
    rw [Core.task, Table.update_view row same]
    exact coherent.agenda
  · have same : after.sleepsOn = fiber.sleepsOn := rfl
    rw [Core.sleeps, Table.update_find row same]
    exact coherent.waiting.take answered other
  · have same : after.live = fiber.live := rfl
    have same' : after.awaits = fiber.awaits := rfl
    rw [Core.live, Core.awaits, Table.update_view row same, Table.update_find row same']
    exact coherent.seating

/-- The fiber on the worker is about to sleep. -/
theorem park {slice : Slice σ} {pending : Pending σ} (coherent : Coherent m.core
      ((Control.suspend pending).focus slice.fiber promise kept))
    (other : ∀ y, kept ≠ some (slice.fiber, y)) : Rests (m.park slice pending) promise kept := by
  have input : m.core.input slice.fiber = (m.fiber? slice.fiber).bind (·.input) := rfl
  simp only [Machine.park]
  split
  · rename_i exit found
    exact (coherent.takeInput (by simp [input, found]) other).seize rfl
  · exact rests coherent.suspend_group
  · rename_i w canceler silent
    rw [← input] at silent
    split
    · have claimed := claimOwn (m := m) coherent
      generalize m.claim w = result at claimed ⊢
      obtain ⟨won, m'⟩ := result
      cases won with
      | true =>
          refine seize (m := m'.runCanceler slice.fiber canceler) ?_ rfl
          rw [core_runCanceler]
          exact claimed.1
      | false =>
          obtain rfl : m' = m := claimed
          exact rests (coherent.suspend_wait canceler silent)
    · exact rests (coherent.suspend_wait canceler silent)

/-- The fiber on the worker goes to the back of the queue. -/
theorem requeue (coherent : Coherent m.core { held := some f, promise, kept }) (run : RunState σ) :
    Rests (m.requeue f run) promise kept := by
  obtain ⟨fiber, row, running, unsaved, unended⟩ := coherent.row_of_held rfl
  let after : Fiber σ := { fiber with run := some run }
  refine rests (enqueue (coherent.of_row row _ after coherent.worker rfl rfl rfl
    (coherent.heirs_of_row row rfl (List.Subset.refl _)) ?_ ?_ ?_ ?_ ?_))
  · obtain ⟨h1, h2, h3, h4⟩ := coherent.shaped row
    exact ⟨fun h => by simp [after, running, FiberStatus.isTerminal] at h,
      fun h => by simp [after, unended] at h, h3, fun h => by simp [after, running] at h⟩
  · have same : after.kin = fiber.kin := rfl
    rw [Core.kin, Table.update_view row same]
    exact coherent.family
  · have task : after.task = .runnable := Fiber.task_eq_runnable_iff.2 ⟨running, rfl⟩
    rw [task]
    exact coherent.agenda.requeue
  · have same : after.sleepsOn = fiber.sleepsOn := rfl
    have same' : after.input = fiber.input := rfl
    rw [Core.sleeps, Core.input, Table.update_find row same, Table.update_find row same']
    exact coherent.waiting.release
  · have same : after.live = fiber.live := rfl
    have same' : after.awaits = fiber.awaits := rfl
    rw [Core.live, Core.awaits, Table.update_view row same, Table.update_find row same']
    exact coherent.seating.hold

/-- What comes of a step of the fiber on the worker. -/
theorem follow {slice : Slice σ} {control : Control σ} (coherent : Coherent m.core
      (control.focus slice.fiber promise kept)) (other : ∀ y, kept ≠ some (slice.fiber, y)) :
    Rests (m.follow slice control) promise kept := by
  cases control with
  | next step =>
      simp only [Machine.follow]
      split
      · exact requeue (m := m) coherent _
      · exact seize (m := m) coherent rfl
  | yield step => exact requeue (m := m) coherent _
  | suspend pending => exact coherent.park other
  | finish exit => exact rests (finish (m := m) coherent exit (.inl rfl))

/-- A fiber that has left the queue with what is left of its program goes to the worker. -/
theorem dispatch (coherent : Coherent m.core { promise, kept })
    (other : ∀ f y, m.ready.toList.head? = some f → kept ≠ some (f, y)) :
    Rests m.dispatch promise kept := by
  unfold Machine.dispatch
  split
  · exact rests coherent
  rename_i f ready pop
  have first := ReadyQueue.toList_of_pop pop
  have mem : f ∈ m.core.ready ++ [] := by simp [Machine.core, first]
  obtain ⟨fiber, row, runnable⟩ :=
    Table.exists_row_of_view (coherent.agenda.mem_iff.1 mem)
  obtain ⟨running, saved⟩ := Fiber.task_eq_runnable_iff.1 runnable
  obtain ⟨run, saved⟩ := Option.isSome_iff_exists.1 saved
  have awake := (coherent.shaped row).pending_of_running running
  have unended := (coherent.shaped row).closing_of_saved saved
  have row' : m.fiber? f = some fiber := row
  simp only [Machine.fiber?] at row' ⊢
  simp only [row', saved]
  let after : Fiber σ := { fiber with run := none, input := none }
  have taken : Coherent ({ m with ready }.modifyFiber f
      fun fiber => { fiber with run := none, input := none }).core
      { held := some f, promise, kept } := by
    refine coherent.of_row row _ after coherent.worker rfl rfl rfl
      (coherent.heirs_of_row row rfl (List.Subset.refl _)) ?_ ?_ ?_ ?_ ?_
    · constructor <;> simp [after, running, unended, awake, FiberStatus.isTerminal]
    · have same : after.kin = fiber.kin := rfl
      rw [Core.kin, Table.update_view row same]
      exact coherent.family
    · have task : after.task = .working := Fiber.task_eq_working_iff.2 ⟨running, rfl, unended⟩
      have agenda := coherent.agenda
      rw [show m.core.ready = f :: ready.toList from first] at agenda
      rw [task]
      exact agenda.dispatch
    · have same : after.sleepsOn = fiber.sleepsOn := rfl
      rw [Core.sleeps, Table.update_find row same]
      refine coherent.waiting.dispatch ?_ fun y => other f y (by simp [first])
      rw [Core.sleeps, Table.find_of_row _ row, Fiber.sleepsOn, awake]
      rfl
    · have same : after.live = fiber.live := rfl
      have same' : after.awaits = fiber.awaits := rfl
      rw [Core.live, Core.awaits, Table.update_view row same, Table.update_find row same']
      exact coherent.seating.hold
  exact taken.seize rfl

end Coherent

end EffectFibers
