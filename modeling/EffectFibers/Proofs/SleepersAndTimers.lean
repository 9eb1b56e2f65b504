import EffectFibers.Effect.Concurrent
import EffectFibers.Proofs.Timers.Sleepers

/-!
# No timer is leaked, and none is an orphan

While the worker is idle, the pending timers and the fibers that are suspended in a sleep belong
together one to one.  This holds however sleeps have come to an end: because their timers have
fired, because an interrupt has come to a fiber in its sleep, or to one that was about to sleep.  As
soon as a fiber no longer waits its timer is gone, and it never comes back.  When a timer fires it
wakes its own fiber and nobody else.

All timers are set by fibers that evaluate sleeps that take time.  The delays before retries and
repetitions are such sleeps, and so are those of delayed effects and of the clock that a timeout
runs against, which is a fiber of its own and loses its sleep when the race is over.

## Main definitions

* `Moment.SleepsAt` – a fiber is suspended in a sleep.
* `Moment.SleepsUntil` – a fiber is suspended in the sleep that a timer is to end.
* `Moment.FiresFor` – the next timer wakes its fiber.
* `Moment.TimersMatchSleepers` – timers and sleeping fibers belong together.

## Main statements

* `Moment.timers_match_sleepers` – so it is at every moment of every run.
-/

namespace EffectFibers

variable {σ : Type}

namespace Moment

/-! ## Sleeping -/

/-- A fiber is suspended in a sleep: what it waits for is a timer. -/
def SleepsAt (μ : Moment σ) (f : FiberId) (w : WaitId) : Prop :=
  ∃ fiber wait, μ.machine.fiber? f = some fiber ∧ fiber.status = .suspended ∧
    fiber.sleepsOn = some w ∧ μ.machine.waits.get? w = some wait ∧ wait.source = .timer

/-- A timer is pending. -/
def HasTimer (μ : Moment σ) (h : TimerId) : Prop := μ.machine.timers.queue.isPending h = true

/-- A fiber is suspended in the sleep that a timer is to end. -/
def SleepsUntil (μ : Moment σ) (f : FiberId) (h : TimerId) : Prop :=
  ∃ w, μ.SleepsAt f w ∧ (h, w) ∈ μ.machine.timers.queue.pending

/-- The next timer is there for a fiber.  When it fires the fiber has its answer, and is in the
queue if it slept; nothing happens to any other fiber, and the timer is gone for good. -/
structure FiresFor (μ : Moment σ) (f : FiberId) (w : WaitId) (h : TimerId) : Prop where
  waits : μ.WaitsUntil f w h
  told : ∃ after p run, (μ.apply .fire).machine.fiber? f = some after ∧ after.status = .running ∧
    (μ.apply .fire).position? f = some p ∧ p.told? = some (run, .ok .null)
  queued : μ.SleepsUntil f h → f ∈ (μ.apply .fire).machine.ready.toList
  others : ∀ g, g ≠ f → (μ.apply .fire).machine.fiber? g = μ.machine.fiber? g
  once : ∀ later, ¬ ((μ.apply .fire).run later).HasTimer h

/-- Timers and sleeping fibers belong together. -/
structure TimersMatchSleepers (μ : Moment σ) : Prop where
  /-- While the worker is idle every timer has one sleeper. -/
  sleeper : μ.held = none → ∀ h, μ.HasTimer h → ∃! f, μ.SleepsUntil f h
  /-- Every sleeper has one timer. -/
  timer : ∀ f w, μ.SleepsAt f w → ∃! h, μ.SleepsUntil f h
  /-- The worker may have a fiber that is about to sleep; it has its timer as well. -/
  waiter : ∀ h, μ.HasTimer h → ∃! f, ∃ w, μ.WaitsUntil f w h
  /-- No timer belongs to a wait that is over. -/
  opened : ∀ h w, (h, w) ∈ μ.machine.timers.queue.pending →
    ∃ wait, μ.machine.waits.get? w = some wait ∧ wait.source = .timer ∧ wait.claimed = false
  /-- Whoever evaluates a sleep that takes time waits for a timer, which is set for that time. -/
  begins : ∀ event f s d, μ.strideAt f event = some s → s.Sleeps d →
    (μ.apply event).WaitsUntil f s.wait s.timer ∧
      (⟨deadlineAfter μ.machine.now d, s.timer⟩, s.wait) ∈
        (μ.apply event).machine.timers.queue.entries
  /-- Timers are set in this way only. -/
  origin : ∀ event h, ¬ μ.HasTimer h → ((μ.apply event).HasTimer h ↔ ∃ w, μ.Sets event h w)
  /-- A fiber that no longer waits has no timer any more. -/
  gone : ∀ event f w h, μ.WaitsUntil f w h → ¬ (μ.apply event).WaitsUntil f w h →
    ∀ later, ¬ ((μ.apply event).run later).HasTimer h
  fires : ∀ e rest, μ.machine.timers.queue.entries = e :: rest →
    ∃ f, μ.FiresFor f e.2 e.1.handle
  /-- Without timers nobody is woken. -/
  silent : μ.machine.timers.queue.entries = [] →
    ∀ f, (μ.apply .fire).machine.fiber? f = μ.machine.fiber? f

variable {μ : Moment σ} {f g : FiberId} {w : WaitId} {h : TimerId} {event : Event σ}

/-! ## Sleepers and waiters -/

namespace Reachable

theorem hasTimer_iff (reachable : Reachable μ) :
    μ.HasTimer h ↔ ∃ w, (h, w) ∈ μ.machine.timers.queue.pending := by
  refine TimerQueue.isPending_iff.trans (exists_congr fun w => ?_)
  exact reachable.timely.wellFormed.queue.action?_eq_some_iff

/-- A fiber in a sleep has kept its timer to have it cancelled. -/
theorem waitsUntil_of_sleepsAt (reachable : Reachable μ) (sleeps : μ.SleepsAt f w) :
    ∃ h, μ.WaitsUntil f w h := by
  obtain ⟨fiber, wait, row, -, asleep, found, source⟩ := sleeps
  obtain ⟨pending, known, own⟩ := Option.bind_eq_some_iff.1 asleep
  cases pending with
  | group k => cases own
  | wait v c =>
      obtain rfl := Option.some.inj own
      obtain ⟨run, position⟩ := reachable.position_of_pending row known
      obtain ⟨wait', found', timed⟩ := reachable.timely.timed position .sleeps
      obtain rfl := Option.some.inj (found.symm.trans found')
      obtain ⟨h, rfl⟩ := timed.1 source
      exact ⟨h, _, run, position, .sleeps⟩

theorem waitsUntil_of_sleepsUntil (reachable : Reachable μ) (sleeps : μ.SleepsUntil f h) :
    ∃ w, μ.WaitsUntil f w h := by
  obtain ⟨w, asleep, pending⟩ := sleeps
  obtain ⟨h', p, run, position, awaits⟩ := reachable.waitsUntil_of_sleepsAt asleep
  obtain rfl := Canceler.timer.inj
    (reachable.timely.canceler_eq reachable pending position awaits)
  exact ⟨w, p, run, position, awaits⟩

/-- A fiber that waits and is not on the worker sleeps. -/
theorem sleepsUntil_of_waitsUntil (reachable : Reachable μ) (free : μ.held ≠ some f)
    (waits : μ.WaitsUntil f w h) : μ.SleepsUntil f h := by
  have pending := reachable.timely.pending waits
  obtain ⟨wait, found, source, -⟩ := reachable.timely.openWait reachable pending
  obtain ⟨p, run, position, awaits⟩ := waits
  cases awaits with
  | asks =>
      obtain ⟨fiber, slice, -, taken, own, -⟩ := taken_of_stepped position
      exact absurd (by simp [Moment.held, taken, own]) free
  | sleeps =>
      obtain ⟨-, fiber, row, -, -, asleep⟩ := row_of_asleep position
      have suspended : fiber.status = .suspended :=
        (shaped_of_isCoherent reachable.isCoherent row).asleep.2 (by simp [asleep])
      exact ⟨w, ⟨fiber, wait, row, suspended, by rw [Fiber.sleepsOn, asleep]; rfl, found, source⟩,
        pending⟩

/-- Nobody else waits for a timer. -/
theorem waitsUntil_unique (reachable : Reachable μ) {v : WaitId} (waits : μ.WaitsUntil f w h)
    (waits' : μ.WaitsUntil g v h) : f = g := by
  obtain rfl := reachable.timely.wait_unique (reachable.timely.pending waits)
    (reachable.timely.pending waits')
  obtain ⟨p, run, position, awaits⟩ := waits
  obtain ⟨q, run', position', awaits'⟩ := waits'
  exact (reachable.awaits_unique position awaits position' awaits').1

theorem existsUnique_waiter (reachable : Reachable μ) (timer : μ.HasTimer h) :
    ∃! f, ∃ w, μ.WaitsUntil f w h := by
  obtain ⟨w, pending⟩ := reachable.hasTimer_iff.1 timer
  obtain ⟨f, waits⟩ := reachable.timely.slept pending
  exact ⟨f, ⟨w, waits⟩, fun g ⟨v, waits'⟩ => reachable.waitsUntil_unique waits' waits⟩

theorem existsUnique_sleeper (reachable : Reachable μ) (idle : μ.held = none)
    (timer : μ.HasTimer h) : ∃! f, μ.SleepsUntil f h := by
  obtain ⟨f, ⟨w, waits⟩, unique⟩ := reachable.existsUnique_waiter timer
  refine ⟨f, reachable.sleepsUntil_of_waitsUntil (by simp [idle]) waits, fun g sleeps => ?_⟩
  exact unique g (reachable.waitsUntil_of_sleepsUntil sleeps)

theorem existsUnique_timer (reachable : Reachable μ) (sleeps : μ.SleepsAt f w) :
    ∃! h, μ.SleepsUntil f h := by
  obtain ⟨h, waits⟩ := reachable.waitsUntil_of_sleepsAt sleeps
  refine ⟨h, ⟨w, sleeps, reachable.timely.pending waits⟩, fun h' sleeps' => ?_⟩
  obtain ⟨v, p, run, position, awaits⟩ := reachable.waitsUntil_of_sleepsUntil sleeps'
  obtain ⟨q, run', position', awaits'⟩ := waits
  obtain rfl := Option.some.inj (position.symm.trans position')
  cases awaits <;> cases awaits' <;> rfl

/-! ## Timers that are gone -/

/-- A timer that was set once and is gone stays away. -/
theorem gone_run (reachable : Reachable μ) (old : h.raw ≤ μ.machine.timers.handles.issued)
    (gone : ¬ μ.HasTimer h) (later : List (Event σ)) : ¬ (μ.run later).HasTimer h := by
  induction later generalizing μ with
  | nil => exact gone
  | cons event later ih =>
      have kept := reachable.timely.keepsTimers reachable event
      refine ih (reachable.apply event) (Nat.le_trans old kept.later) fun timer => ?_
      obtain ⟨w, pending⟩ := (reachable.apply event).hasTimer_iff.1 timer
      rcases (kept.pending h w).1 pending with ⟨before, -⟩ | sets
      · exact gone (reachable.hasTimer_iff.2 ⟨w, before⟩)
      · exact absurd old (Nat.not_le.2 (kept.fresh sets))

theorem issued_of_pending (reachable : Reachable μ)
    (pending : (h, w) ∈ μ.machine.timers.queue.pending) :
    h.raw ≤ μ.machine.timers.handles.issued :=
  reachable.timely.wellFormed.issued h (reachable.timely.wellFormed.queue.keyed _ pending)

/-- When the wait of a timer is claimed the timer is gone. -/
theorem gone_of_claimed (reachable : Reachable μ)
    (pending : (h, w) ∈ μ.machine.timers.queue.pending)
    (claimed : (μ.apply event).machine.Claimed w) (later : List (Event σ)) :
    ¬ ((μ.apply event).run later).HasTimer h := by
  have kept := reachable.timely.keepsTimers reachable event
  have old := reachable.issued_of_pending pending
  refine (reachable.apply event).gone_run (Nat.le_trans old kept.later) (fun timer => ?_) later
  obtain ⟨v, still⟩ := (reachable.apply event).hasTimer_iff.1 timer
  rcases (kept.pending h v).1 still with ⟨before, free⟩ | sets
  · obtain rfl := reachable.timely.wait_unique pending before
    exact free claimed
  · exact absurd old (Nat.not_le.2 (kept.fresh sets))

theorem gone_of_left (reachable : Reachable μ) (waits : μ.WaitsUntil f w h)
    (left : ¬ (μ.apply event).WaitsUntil f w h) (later : List (Event σ)) :
    ¬ ((μ.apply event).run later).HasTimer h := by
  refine reachable.gone_of_claimed (reachable.timely.pending waits) ?_ later
  by_contra free
  obtain ⟨p, run, position, awaits⟩ := waits
  obtain ⟨q, position', awaits'⟩ := reachable.awaits_after position awaits free
  exact left ⟨q, run, position', awaits'⟩

theorem hasTimer_apply_iff (reachable : Reachable μ) (event : Event σ) (new : ¬ μ.HasTimer h) :
    (μ.apply event).HasTimer h ↔ ∃ w, μ.Sets event h w := by
  have kept := reachable.timely.keepsTimers reachable event
  refine (reachable.apply event).hasTimer_iff.trans (exists_congr fun w => ?_)
  rw [kept.pending, or_iff_right fun before => new (reachable.hasTimer_iff.2 ⟨w, before.1⟩)]

/-! ## The next timer -/

/-- The wait of the next timer is answered with nothing. -/
theorem fire_eq (reachable : Reachable μ) {e : TimerKey × WaitId} {rest : List (TimerKey × WaitId)}
    (entries : μ.machine.timers.queue.entries = e :: rest) :
    ∃ n : Machine σ, n.fibers = μ.machine.fibers ∧ n.waits = μ.machine.waits ∧
      (μ.apply .fire).machine = n.resume e.2 (.ok .null) := by
  have fires := Machine.fires_fireNext reachable.timely.wellFormed.queue
  show ∃ n : Machine σ, _ ∧ _ ∧ μ.machine.fireNext = _
  generalize μ.machine.fireNext = m' at fires ⊢
  cases fires with
  | none none =>
      rw [none] at entries
      cases entries
  | @first _ _ queue now entries' =>
      obtain ⟨rfl, -⟩ := List.cons.inj (entries'.symm.trans entries)
      exact ⟨{ μ.machine with timers := { μ.machine.timers with queue }, now }, rfl, rfl, rfl⟩

theorem fire_silent (reachable : Reachable μ) (none : μ.machine.timers.queue.entries = [])
    (f : FiberId) : (μ.apply .fire).machine.fiber? f = μ.machine.fiber? f := by
  have fires := Machine.fires_fireNext reachable.timely.wellFormed.queue
  show μ.machine.fireNext.fiber? f = _
  generalize μ.machine.fireNext = m' at fires ⊢
  cases fires with
  | none => rfl
  | first entries =>
      rw [none] at entries
      cases entries

/-- The next timer wakes its own fiber and nobody else. -/
theorem firesFor (reachable : Reachable μ) {e : TimerKey × WaitId} {rest : List (TimerKey × WaitId)}
    (entries : μ.machine.timers.queue.entries = e :: rest) : ∃ f, μ.FiresFor f e.2 e.1.handle := by
  obtain ⟨⟨deadline, h⟩, w⟩ := e
  have pending : (h, w) ∈ μ.machine.timers.queue.pending :=
    reachable.timely.wellFormed.queue.mem_pending_iff.2 ⟨deadline, by simp [entries]⟩
  obtain ⟨f, p, run, position, awaits⟩ := reachable.timely.slept pending
  obtain ⟨fiber, pends⟩ := reachable.pends position awaits.openWait?
  obtain ⟨wait, found, free, rfl⟩ := pends.opened
  obtain ⟨n, fibers, waits, fires⟩ := reachable.fire_eq entries
  dsimp only at fires
  have rows : ∀ g, n.fiber? g = μ.machine.fiber? g := fun g => congrArg (Table.get? · g) fibers
  have found' : n.waits.get? w = some wait := waits ▸ found
  have opened : n.isOpen w = true := by simp [Machine.isOpen, found', free]
  have claimed : (μ.apply .fire).machine.Claimed w := by
    rw [fires, Machine.Claimed, n.waits_resume w]
    exact Machine.claimed_claim opened
  obtain ⟨after, row, kept⟩ := Machine.fiber?_resume found' free ((rows _).trans pends.row)
    pends.live pends.expects.awake (.ok .null)
  rw [← fires] at row
  have there := reachable.apply .fire
  have grip : (μ.apply .fire).grip wait.owner = μ.grip wait.owner :=
    reachable.grip_of_other pends.row fun own => by cases own
  have told : (after.positionOn (μ.grip wait.owner)).told? = some (run, .ok .null) := by
    have stood : (fiber.positionOn (μ.grip wait.owner)).Awaits run w (.timer h) :=
      Option.some.inj ((position?_of_row pends.row).symm.trans position) ▸ awaits
    exact Fiber.told_of_awaits stood kept
  refine ⟨wait.owner, ⟨p, run, position, awaits⟩, ⟨after, _, run, row, kept.status, ?_, told⟩,
    fun sleeps => ?_, fun g other => ?_, reachable.gone_of_claimed pending claimed⟩
  · rw [← grip]
    exact position?_of_row row
  · obtain ⟨v, ⟨fiber', _, row', suspended, -⟩, -⟩ := sleeps
    obtain rfl := Option.some.inj (pends.row.symm.trans row')
    have saved := ((shaped_of_isCoherent reachable.isCoherent row').parked suspended).1
    exact (there.mem_ready_iff row).2 ⟨kept.status, kept.run ▸ saved⟩
  · have unclaimed : wait.claimed = false := by simpa [Machine.isOpen, found'] using opened
    rw [fires, Machine.resume_of_open found' unclaimed, Machine.fiber?_deliver other, Machine.fiber?_claim, rows]

end Reachable

/-- At every moment of every run timers and sleeping fibers belong together. -/
theorem timers_match_sleepers (world : World σ) (budget : Nat) (events : List (Event σ)) :
    ((initial world budget).run events).TimersMatchSleepers := by
  have reachable : Reachable ((initial world budget).run events) :=
    (Reachable.initial world budget).run events
  constructor
  · exact fun idle h timer => reachable.existsUnique_sleeper idle timer
  · exact fun f w sleeps => reachable.existsUnique_timer sleeps
  · exact fun h timer => reachable.existsUnique_waiter timer
  · exact fun h w pending => reachable.timely.openWait reachable pending
  · exact fun event f s d stride sleeps => ⟨reachable.waitsUntil_of_sleeps stride sleeps,
      reachable.timely.mem_entries_of_sleeps stride sleeps⟩
  · exact fun event h new => reachable.hasTimer_apply_iff event new
  · exact fun event f w h waits left => reachable.gone_of_left waits left
  · exact fun e rest entries => reachable.firesFor entries
  · exact fun none f => reachable.fire_silent none f

/-- A program that sleeps for a second while a timeout of two seconds runs. -/
def sleepsInTime : Effect Unit := (Effect.sleep (.ofSecs 1)).timeout (.ofSecs 2)

/-- A run of this program up to the moment in which both fibers sleep. -/
def sleepingInTime : List (Event Unit) := .start sleepsInTime.node :: List.replicate 11 .work

/-- Both timers have their sleepers.  The first one fires, and the second one is cancelled when the
race is over. -/
theorem timeout_leaves_no_timer :
    let μ := (initial { host := () } 100).run sleepingInTime
    (∃! f, μ.SleepsUntil f ⟨1⟩) ∧ (∃! f, μ.SleepsUntil f ⟨2⟩) ∧
    (∃ w f, μ.FiresFor f w ⟨1⟩) ∧ (μ.apply .fire).HasTimer ⟨2⟩ ∧
    ((μ.apply .fire).run (List.replicate 3 .work)).machine.timers.queue.pending = [] := by
  intro μ
  have matched : μ.TimersMatchSleepers := timers_match_sleepers { host := () } 100 sleepingInTime
  have idle : μ.held = none := by decide +kernel
  have first : μ.HasTimer ⟨1⟩ := by
    show μ.machine.timers.queue.isPending ⟨1⟩ = true
    decide +kernel
  have second : μ.HasTimer ⟨2⟩ := by
    show μ.machine.timers.queue.isPending ⟨2⟩ = true
    decide +kernel
  have later : (μ.apply .fire).HasTimer ⟨2⟩ := by
    show (μ.apply .fire).machine.timers.queue.isPending ⟨2⟩ = true
    decide +kernel
  obtain ⟨f, fires⟩ := matched.fires (⟨_, ⟨1⟩⟩, _) _ (by rfl)
  exact ⟨matched.sleeper idle _ first, matched.sleeper idle _ second, ⟨_, f, fires⟩, later,
    by decide +kernel⟩

end Moment

end EffectFibers
