import EffectFibers.Proofs.Progress.Stack
import EffectFibers.Proofs.Waits.Course

/-!
# How a wait begins

A fiber that asks opens a wait and passes its question on, to user code, to the timers, to a fiber,
or to the builder of a layer.  Any of these may answer at once.  If the user code panics then the
fiber takes its question back, unless it was answered before.

## Main definitions

* `Stride.Asks` – a step that opens a wait.
* `Stride.canceler`, `Stride.panic?` – what the question has come to.

## Main statements

* `Moment.Reachable.opening` – a wait is open at first, unless it was answered or taken back at once.
-/

namespace EffectFibers

variable {σ : Type}

/-- Whether a node opens a wait. -/
def Node.asks : Node σ → Bool
  | .async _ | .watch .. | .awaitBuild _ => true
  | .sleep d => !d.isZero
  | _ => false

namespace Stride

/-- The wait that a step opens, if it opens one. -/
def wait (s : Stride σ) : WaitId := s.machine.waits.nextId

/-- A step opens a wait: it evaluates a node that asks, and notices no interrupt. -/
structure Asks (s : Stride σ) : Prop where
  node : ∃ node, s.slice.run.next = .eval node ∧ node.asks = true
  calm : s.machine.interruptPending s.slice.fiber s.slice.run = false

/-- What user code replies that is handed a callback. -/
def reply (s : Stride σ) (register : WaitId → Action σ (Option (Cleanup σ))) :
    Except Panic (Option (Cleanup σ)) :=
  (register s.wait (Machine.statusOf s.machine.fibers) s.machine.world).result

/-- What tidies up if an interrupt ends the wait. -/
def canceler (s : Stride σ) : Canceler σ :=
  match s.slice.run.next with
  | .eval (.async register) =>
    match s.reply register with
    | .ok (some cleanup) => .code cleanup
    | _ => .none
  | .eval (.sleep d) => .timer (s.machine.timers.schedule s.machine.now d s.wait).1
  | _ => .none

/-- The panic of the user code that is handed a callback. -/
def panic? (s : Stride σ) : Option Panic :=
  match s.slice.run.next with
  | .eval (.async register) =>
    match s.reply register with
    | .ok _ => none
    | .error p => some p
  | _ => none

end Stride

namespace Machine

/-- What a step comes to that opens a wait, and what it does about it after that. -/
inductive Opened (n : Machine σ) (w : WaitId) (canceler : Canceler σ) (log : WaitLog σ)
    (run : RunState σ) : Option Panic → StepResult σ → WaitLog σ → Prop
  | asks : Opened n w canceler log run none ⟨.suspend (.wait w canceler), run, n⟩ log
  /-- User code has panicked, and the fiber takes its question back. -/
  | dies {p} (opened : n.isOpen w = true) :
    Opened n w canceler log run (some p) ⟨.die (.ofPanic p), run, (n.claim w).2⟩
      (log ++ [(w, .claims (.panic p))])
  /-- User code has panicked after it has answered. -/
  | late {p} (closed : n.isOpen w = false) :
    Opened n w canceler log run (some p) ⟨.suspend (.wait w canceler), run, n⟩ log

end Machine

variable {μ : Moment σ} {f : FiberId} {s : Stride σ}

/-- A step that asks opens a wait, and passes the question on. -/
theorem Stride.Asks.opened (asks : s.Asks) : ∃ source log n log',
    Machine.Does none (s.machine.openWait s.slice.fiber source).2 log n ∧
      n.Opened s.wait s.canceler log s.slice.run s.panic? s.result log' ∧
      s.machine.stepRunLog s.slice.fiber s.scope s.slice.run = log' := by
  obtain ⟨⟨node, next, asks⟩, calm⟩ := asks
  have result : s.result = s.machine.evalNode s.slice.fiber s.scope s.slice.run node := by
    rw [Stride.result, Machine.stepRun_eval next, Machine.eval, calm, Bool.and_false]
    rfl
  have log : s.machine.stepRunLog s.slice.fiber s.scope s.slice.run =
      s.machine.evalLog s.slice.fiber s.scope s.slice.run node := by
    unfold Machine.stepRunLog
    rw [next]
  unfold Stride.canceler Stride.panic?
  rw [result, log, next]
  unfold Machine.evalLog
  rw [calm, Bool.and_false]
  cases node with
  | async register =>
      -- what the user code has replied decides what the step comes to
      have ran : Machine.Does none (s.machine.openWait s.slice.fiber .callback).2 _
          ((s.machine.openWait s.slice.fiber .callback).2.perform (register s.wait)).2 :=
        .perform _ (register s.wait)
      refine ⟨.callback, _, _, _, ran, ?_, rfl⟩
      have reply : ((s.machine.openWait s.slice.fiber .callback).2.perform
        (register s.wait)).1 = s.reply register := rfl
      have wait : (s.machine.openWait s.slice.fiber .callback).1 = s.wait := rfl
      simp only [Machine.evalNode, Machine.evalAsync, Machine.evalAsyncLog, Bool.false_eq_true,
        if_false, wait, ← reply]
      generalize (s.machine.openWait s.slice.fiber .callback).2.perform (register s.wait) = out
      obtain ⟨answer, n⟩ := out
      rcases answer with p | _ | cleanup
      · cases opened : n.isOpen s.wait with
        | true =>
            simp only [n.claim_fst, Machine.claimLog, opened, if_true]
            exact .dies opened
        | false =>
            simp only [n.claim_fst, Machine.claimLog, opened, Bool.false_eq_true, if_false,
              List.append_nil]
            rw [Machine.claim_of_closed opened]
            exact .late opened
      · simp only [List.append_nil]
        exact .asks
      · simp only [List.append_nil]
        exact .asks
  | watch target how =>
      have untimed : (s.machine.openWait s.slice.fiber .fiber).2.Untimed s.wait :=
        Evolves.untimed_openWait (by decide)
      exact ⟨.fiber, _, _, _, .askWatch untimed target how, .asks, rfl⟩
  | awaitBuild layer =>
      have untimed : (s.machine.openWait s.slice.fiber .build).2.Untimed s.wait :=
        Evolves.untimed_openWait (by decide)
      exact ⟨.build, _, _, _, .joinBuild s.scope layer untimed, .asks, rfl⟩
  | sleep d =>
      have waits : d.isZero = false := by simpa [Node.asks] using asks
      simp only [Machine.evalNode, Machine.evalSleep, waits, Bool.false_eq_true, if_false]
      refine ⟨.timer, [], _, [], ?_, .asks, rfl⟩
      exact .still (.rest rfl rfl rfl rfl rfl rfl rfl) (.of_eq rfl rfl)
  | _ => cases asks

namespace Moment

/-- A fiber that is about to take a step waits for nothing. -/
theorem Reachable.row_of_stride (reachable : Reachable μ) (stride : μ.strideAt f .work = some s) :
    ∃ fiber, μ.machine.fiber? f = some fiber ∧ fiber.status = .running ∧ fiber.pending = none ∧
      fiber.closing = none ∧ fiber.input = none ∧ ∀ v, ¬ μ.machine.OpenFor f v := by
  have coherent := reachable.isCoherent
  obtain ⟨-, free, running, own, -⟩ := strideAt_eq_some_iff.1 stride
  have held : μ.held = some f := by simp [Moment.held, free, running, own]
  obtain ⟨own, position, -⟩ := reachable.stride stride
  obtain ⟨fiber, row, -⟩ := Option.map_eq_some_iff.1 position
  obtain ⟨status, -, awake, going⟩ := row_of_held coherent held row
  refine ⟨fiber, row, status, awake, going, ?_, fun v opened => ?_⟩
  · by_contra answered
    have asking := (waiting_of_isCoherent coherent).held_input (f := f) held
      (by rwa [show μ.machine.core.input f = fiber.input from Table.find_of_row _ row])
    simp [Moment.asking, focus, free] at asking
  · cases (openFor_iff coherent position).1 opened

/-- A fiber that has just opened a wait waits for it. -/
theorem Reachable.pends_of_stride (reachable : Reachable μ) (stride : μ.strideAt f .work = some s)
    (source : WaitSource) :
    ∃ fiber, μ.machine.fiber? f = some fiber ∧ fiber.status = .running ∧ fiber.input = none ∧
      (s.machine.openWait f source).2.Pends f fiber s.wait := by
  obtain ⟨fiber, row, running, awake, going, silent, closed⟩ := reachable.row_of_stride stride
  obtain ⟨-, -, -, -, same⟩ := strideAt_eq_some_iff.1 stride
  have waits : s.machine.waits = μ.machine.waits := by rw [same]
  have fibers : s.machine.fibers = μ.machine.fibers := by rw [same]
  have found : (s.machine.openWait f source).2.waits.get? s.wait = some { owner := f, source } :=
    Table.get?_push_self _ _
  refine ⟨fiber, row, running, silent, ?_, ?_, ?_, ⟨_, found, rfl, rfl⟩, fun v opened => ?_,
    fun g other row' asleep => ?_⟩
  · rw [Machine.fiber?, ← fibers] at row
    exact row
  · rw [running]
    rfl
  · exact { awake := fun _ => awake, sleeps := by simp [awake], closing := by simp [going] }
  · obtain ⟨wait, found', free, owner⟩ := opened
    rw [Machine.openWait, Table.get?_push] at found'
    split at found'
    · rename_i here
      exact here
    · exact absurd ⟨wait, waits ▸ found', free, owner⟩ (closed v)
  · have row'' : μ.machine.fiber? g = some other := by
      rw [Machine.fiber?, ← fibers]
      exact row'
    have owner := (waiting_of_isCoherent reachable.isCoherent).owner_of_sleeps
      ((Table.find_of_row Fiber.sleepsOn row'').trans asleep)
    -- nobody can sleep on a wait that there has not been yet
    have fresh : μ.machine.core.waits.find Wait.openOwner s.wait = none := by
      rw [Stride.wait, waits]
      exact Table.find_nextId _ _
    cases fresh.symm.trans owner

/-- The machine after a step, and the step that was taken. -/
theorem work_of_stride (stride : μ.strideAt f .work = some s) :
    μ.apply .work = { machine := s.result.machine
                      taken := some ({ s.slice with run := s.result.run }, s.result.control) } := by
  obtain ⟨-, free, running, -, same⟩ := strideAt_eq_some_iff.1 stride
  show μ.work = _
  simp only [Moment.work, free, running]
  rw [← same]
  rfl

/-- A fiber that has asked waits, or has its answer. -/
theorem course_of_opened (stride : μ.strideAt f .work = some s) {fiber : Fiber σ} {n : Machine σ}
    {acts : List (WaitAct σ)} (running : fiber.status = .running) (silent : fiber.input = none)
    (outcome : n.Outcome f fiber s.wait acts)
    (result : s.result = ⟨.suspend (.wait s.wait s.canceler), s.slice.run, n⟩) :
    (μ.apply .work).WaitCourse f s.slice.run s.wait s.canceler [] acts := by
  obtain ⟨-, -, -, own, -⟩ := strideAt_eq_some_iff.1 stride
  have stands : ∀ {after}, n.fiber? f = some after → ((μ.apply .work).run []).position? f =
      some (.stepped s.slice.run (.suspend (.wait s.wait s.canceler)) after.input) := by
    intro after row
    have row' : (μ.apply .work).machine.fiber? f = some after := by
      rw [work_of_stride stride, result]
      exact row
    have grip : (μ.apply .work).grip f =
        some (s.slice.run, some (.suspend (.wait s.wait s.canceler))) := by
      rw [work_of_stride stride, result]
      exact if_pos own
    rw [run_nil, position?_of_row row', grip]
    rfl
  cases outcome with
  | pending row kept _ _ =>
      refine .waits (stands row) ?_
      rw [kept.input, silent]
      exact .asks
  | answered row kept _ =>
      refine .answered (.told (stands row) ?_)
      rw [kept.input]
      rfl
  | broken _ _ _ breakable _ =>
      cases running.symm.trans (Fiber.breakable?_eq_some_iff.1 breakable).1

/-- A wait is open at first, unless it was answered or taken back at once. -/
theorem Reachable.opening (reachable : Reachable μ) (stride : μ.strideAt f .work = some s)
    (asks : s.Asks) :
    ((μ.apply .work).WaitCourse f s.slice.run s.wait s.canceler [] ((μ.waitLogAt .work).on s.wait) ∨
      ∃ p, s.panic? = some p ∧ s.result.control = .die (.ofPanic p) ∧
        (μ.waitLogAt .work).on s.wait = [.claims (.panic p)]) ∧
    ((μ.waitLogAt .work).on s.wait ≠ [] → (μ.apply .work).machine.Claimed s.wait) := by
  obtain ⟨source, log, n, log', does, opened, logged⟩ := asks.opened
  obtain ⟨fiber, -, running, silent, pends⟩ := reachable.pends_of_stride stride source
  obtain ⟨-, free, begun, own, same⟩ := strideAt_eq_some_iff.1 stride
  rw [own] at does logged
  have outcome := does.outcome nofun pends
  have acts : μ.waitLogAt .work = log' := by
    rw [← logged, ← own]
    simp only [waitLogAt, free, begun]
    rw [← same]
    rfl
  have claimed : log.on s.wait ≠ [] → n.Claimed s.wait := fun claims =>
    Machine.claimed_of_openFor pends.opened does.evolves (outcome.closed claims s.wait)
  rw [acts, (machine_of_stride stride).2]
  generalize result : s.result = out at opened
  generalize panics : s.panic? = panic at opened
  cases opened with
  | asks =>
      exact ⟨.inl (course_of_opened stride running silent outcome result), claimed⟩
  | late =>
      exact ⟨.inl (course_of_opened stride running silent outcome result), claimed⟩
  | @dies p opened =>
      have none : log.on s.wait = [] := by
        by_contra claims
        rw [(claimed claims).isOpen] at opened
        cases opened
      refine ⟨.inr ⟨p, rfl, rfl, ?_⟩, fun _ => Machine.claimed_claim opened⟩
      rw [WaitLog.on_append, none, WaitLog.on_cons_self]
      rfl

end Moment

end EffectFibers
